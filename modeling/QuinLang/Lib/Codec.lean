import QuinLang.Lib.StateExcept

/-! Readers of a binary format: what reads back the bytes of a value whatever follows
them, and what cannot be cut short. -/

namespace Codec

variable {ε α β γ : Type} {good : ε → Prop}

/-- Read a value off the front of the bytes not yet read. -/
abbrev Reader (ε α : Type) := StateT (List UInt8) (Except ε) α

/-- `r` takes exactly `bytes` and returns `a`, whatever comes after them. -/
def Reads (r : Reader ε α) (bytes : List UInt8) (a : α) : Prop := ∀ rest, r (bytes ++ rest) = .ok (a, rest)

/-- A reader that fails in `good` ways only, and that depends on the bytes it takes alone:
it returns the same whatever follows them, and fails on any that stop short. -/
structure Framed (good : ε → Prop) (r : Reader ε α) : Prop where
  fails : ∀ bytes e, r bytes = .error e → good e
  takes : ∀ bytes a rest, r bytes = .ok (a, rest) → ∃ front, bytes = front ++ rest ∧ Reads r front a ∧
    ∀ q, q <+: front → q ≠ front → ∃ e, r q = .error e

theorem bind_error {r : Reader ε α} {f : α → Reader ε β} {bytes : List UInt8} {e : ε}
    (h : (r >>= f) bytes = .error e) :
    r bytes = .error e ∨ ∃ a rest, r bytes = .ok (a, rest) ∧ f a rest = .error e := by
  change (r bytes >>= fun p => f p.1 p.2) = .error e at h
  cases hr : r bytes with
  | error e' =>
    rw [hr] at h
    cases h
    exact Or.inl rfl
  | ok p =>
    rw [hr] at h
    exact Or.inr ⟨p.1, p.2, rfl, h⟩

theorem bind_of_error {r : Reader ε α} {f : α → Reader ε β} {bytes : List UInt8} {e : ε}
    (h : r bytes = .error e) : (r >>= f) bytes = .error e := by
  change (r bytes >>= fun p => f p.1 p.2) = .error e
  rw [h]
  rfl

theorem bind_of_ok {r : Reader ε α} {f : α → Reader ε β} {bytes rest : List UInt8} {a : α}
    (h : r bytes = .ok (a, rest)) : (r >>= f) bytes = f a rest := by
  change (r bytes >>= fun p => f p.1 p.2) = _
  rw [h]
  rfl

namespace Reads

theorem pure (a : α) : Reads (pure a : Reader ε α) [] a := fun _ => rfl

theorem bind {r : Reader ε α} {f : α → Reader ε β} {xs ys : List UInt8} {a : α} {b : β}
    (hr : Reads r xs a) (hf : Reads (f a) ys b) : Reads (r >>= f) (xs ++ ys) b := fun rest => by
  rw [List.append_assoc, bind_of_ok (hr (ys ++ rest)), hf rest]

/-- Bytes that end with those of the last step. -/
theorem bind' {r : Reader ε α} {f : α → Reader ε β} {xs y zs : List UInt8} {a : α} {b : β}
    (hr : Reads r xs a) (hf : Reads (f a) y b) (hz : zs = xs ++ y) : Reads (r >>= f) zs b :=
  hz ▸ hr.bind hf

theorem map {r : Reader ε α} {f : α → β} {xs : List UInt8} {a : α} (hr : Reads r xs a) :
    Reads (r >>= fun a => Pure.pure (f a)) xs (f a) :=
  hr.bind' (f := fun a => Pure.pure (f a)) (Reads.pure (f a)) (List.append_nil xs).symm

end Reads

namespace Framed

theorem pure (a : α) : Framed good (pure a : Reader ε α) where
  fails _ _ h := nomatch h
  takes bytes b rest h := by
    cases h
    refine ⟨[], rfl, Reads.pure a, fun q hq hne => absurd (List.prefix_nil.mp hq) hne⟩

theorem throw {e : ε} (h : good e) : Framed good (throw e : Reader ε α) where
  fails _ _ he := by
    cases he
    exact h
  takes _ _ _ h := nomatch h

/-- The second step only has to do with what the first can return. -/
theorem bindOf {r : Reader ε α} {f : α → Reader ε β} {P : α → Prop} (hr : Framed good r)
    (hP : ∀ bytes a rest, r bytes = .ok (a, rest) → P a) (hf : ∀ a, P a → Framed good (f a)) :
    Framed good (r >>= f) where
  fails bytes e h := by
    rcases bind_error h with h | ⟨a, rest, hok, h⟩
    · exact hr.fails bytes e h
    · exact (hf a (hP bytes a rest hok)).fails rest e h
  takes bytes b rest h := by
    obtain ⟨a, mid, h₁, h₂⟩ := StateExcept.bind_ok.mp h
    obtain ⟨front, rfl, hreads, hshort⟩ := hr.takes bytes a mid h₁
    obtain ⟨front', rfl, hreads', hshort'⟩ := (hf a (hP _ a _ h₁)).takes mid b rest h₂
    refine ⟨front ++ front', (List.append_assoc _ _ _).symm, hreads.bind hreads', fun q hq hne => ?_⟩
    -- the cut falls in what the first step takes, or in what the second takes
    rcases List.prefix_or_prefix_of_prefix hq (List.prefix_append front front') with h | ⟨q', rfl⟩
    · by_cases hqf : q = front
      · subst hqf
        have hne' : ([] : List UInt8) ≠ front' := by
          rintro rfl
          simp at hne
        obtain ⟨e, he⟩ := hshort' [] List.nil_prefix hne'
        have hq : r q = .ok (a, []) := by simpa using hreads []
        exact ⟨e, by rw [bind_of_ok hq, he]⟩
      · obtain ⟨e, he⟩ := hshort q h hqf
        exact ⟨e, bind_of_error he⟩
    · have hq' : q' <+: front' := (List.prefix_append_right_inj front).mp hq
      obtain ⟨e, he⟩ := hshort' q' hq' (by rintro rfl; exact hne rfl)
      exact ⟨e, by rw [bind_of_ok (hreads q'), he]⟩

theorem bind {r : Reader ε α} {f : α → Reader ε β} (hr : Framed good r) (hf : ∀ a, Framed good (f a)) :
    Framed good (r >>= f) :=
  hr.bindOf (P := fun _ => True) (fun _ _ _ _ => trivial) fun a _ => hf a

theorem map {r : Reader ε α} {f : α → β} (hr : Framed good r) :
    Framed good (r >>= fun a => Pure.pure (f a)) :=
  hr.bind fun a => .pure (f a)

theorem ite {p : Prop} [Decidable p] {r r' : Reader ε α} (h : p → Framed good r) (h' : ¬p → Framed good r') :
    Framed good (if p then r else r') := by
  split
  · exact h ‹_›
  · exact h' ‹_›

/-- What reads its own bytes whole fails on a part of them and on no more of them. -/
theorem of_reads {r : Reader ε α} (hr : Framed good r) {bytes : List UInt8} {a : α} (h : Reads r bytes a)
    {q : List UInt8} (hq : q <+: bytes) (hne : q ≠ bytes) : ∃ e, r q = .error e ∧ good e := by
  obtain ⟨front, hf, -, hshort⟩ := hr.takes bytes a [] (by simpa using h [])
  rw [List.append_nil] at hf
  subst hf
  obtain ⟨e, he⟩ := hshort q hq hne
  exact ⟨e, he, hr.fails q e he⟩

end Framed

section Bytes

/-- The next `count` bytes. -/
def take (short : ε) (count : ℕ) : Reader ε (List UInt8) := fun bytes =>
  if bytes.length < count then .error short else .ok (bytes.take count, bytes.drop count)

theorem reads_take {short : ε} {bytes : List UInt8} {count : ℕ} (h : bytes.length = count) :
    Reads (take short count) bytes bytes := fun rest => by
  have : ¬ (bytes ++ rest).length < count := by simp [h]
  rw [take, if_neg this, List.take_left' h, List.drop_left' h]

theorem framed_take {short : ε} (h : good short) (count : ℕ) : Framed good (take short count) where
  fails bytes e he := by
    unfold take at he
    split at he <;> cases he
    exact h
  takes bytes a rest hok := by
    unfold take at hok
    split at hok
    · cases hok
    · rename_i hl
      cases hok
      have hlen : (bytes.take count).length = count := by simp; omega
      refine ⟨bytes.take count, (List.take_append_drop _ _).symm, reads_take hlen, fun q hq hne => ⟨short, ?_⟩⟩
      have hlt : q.length < count := by
        refine lt_of_le_of_ne (hlen ▸ hq.length_le) fun he => hne ?_
        exact hq.eq_of_length (he.trans hlen.symm)
      rw [take, if_pos hlt]

/-- A number in `count` bytes, the least significant first. -/
def littleEndian : ℕ → ℕ → List UInt8
  | 0, _ => []
  | count + 1, v => UInt8.ofNat (v % 256) :: littleEndian count (v / 256)

def ofLittleEndian : List UInt8 → ℕ
  | [] => 0
  | b :: bs => b.toNat + 256 * ofLittleEndian bs

@[simp]
theorem length_littleEndian (count v : ℕ) : (littleEndian count v).length = count := by
  induction count generalizing v with
  | zero => rfl
  | succ count ih => simp [littleEndian, ih]

theorem ofLittleEndian_littleEndian {count v : ℕ} (h : v < 256 ^ count) :
    ofLittleEndian (littleEndian count v) = v := by
  induction count generalizing v with
  | zero =>
    obtain rfl : v = 0 := by simpa using h
    rfl
  | succ count ih =>
    have hv : v / 256 < 256 ^ count := Nat.div_lt_of_lt_mul (by rw [pow_succ] at h; omega)
    simp only [littleEndian, ofLittleEndian, ih hv, UInt8.toNat_ofNat']
    omega

end Bytes

section Many

/-- `n` values one after the other, the first with index `i`. -/
def many (r : ℕ → Reader ε α) : ℕ → ℕ → Reader ε (List α)
  | _, 0 => return []
  | i, n + 1 => do
    let a ← r i
    return a :: (← many r (i + 1) n)

theorem framed_many {r : ℕ → Reader ε α} (hr : ∀ i, Framed good (r i)) (i n : ℕ) :
    Framed good (many r i n) := by
  induction n generalizing i with
  | zero => exact .pure []
  | succ n ih => exact (hr i).bind fun a => (ih (i + 1)).map

end Many

end Codec
