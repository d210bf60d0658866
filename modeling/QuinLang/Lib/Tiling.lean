import Mathlib

/-! Blocks laid end to end. A block is named by the address it starts at and
`stop` says where it ends, so a tiling of `[a, e)` is the list of starts met by
walking from `a`. Packing moves a selection of the blocks down until they
again lie end to end. -/

namespace Tiling

/-- `as` are the starts of consecutive non-empty blocks filling `[a, e)`. -/
inductive Tiles (stop : ℕ → ℕ) : ℕ → List ℕ → ℕ → Prop
  | nil (a : ℕ) : Tiles stop a [] a
  | cons {a e : ℕ} {as : List ℕ} : a < stop a → Tiles stop (stop a) as e → Tiles stop a (a :: as) e

variable {stop stop' : ℕ → ℕ} {a e : ℕ} {as : List ℕ}

theorem Tiles.le (h : Tiles stop a as e) : a ≤ e := by
  induction h with
  | nil a => exact le_rfl
  | cons hlt _ ih => omega

theorem Tiles.mem_bounds (h : Tiles stop a as e) {b : ℕ} (hb : b ∈ as) :
    a ≤ b ∧ b < stop b ∧ stop b ≤ e := by
  induction h with
  | nil a => simp at hb
  | cons hlt ht ih =>
    rcases List.mem_cons.mp hb with rfl | hb
    · exact ⟨le_rfl, hlt, ht.le⟩
    · have := ih hb
      omega

theorem Tiles.pairwise (h : Tiles stop a as e) : as.Pairwise fun x y => stop x ≤ y := by
  induction h with
  | nil a => exact List.Pairwise.nil
  | cons hlt ht ih => exact List.pairwise_cons.mpr ⟨fun b hb => (ht.mem_bounds hb).1, ih⟩

theorem Tiles.sorted (h : Tiles stop a as e) : as.Pairwise (· < ·) := by
  refine h.pairwise.imp_of_mem ?_
  intro x y hx _ hxy
  have := h.mem_bounds hx
  omega

theorem Tiles.nodup (h : Tiles stop a as e) : as.Nodup := h.sorted.imp fun hlt => by omega

theorem Tiles.stop_le (h : Tiles stop a as e) {b c : ℕ} (hb : b ∈ as) (hc : c ∈ as) (hlt : b < c) :
    stop b ≤ c := by
  induction h with
  | nil a => simp at hb
  | cons hlt' ht ih =>
    rcases List.mem_cons.mp hb with rfl | hb' <;> rcases List.mem_cons.mp hc with rfl | hc'
    · omega
    · exact (ht.mem_bounds hc').1
    · have := (ht.mem_bounds hb').1
      omega
    · exact ih hb' hc'

/-- At most one block contains a given address. -/
theorem Tiles.unique (h : Tiles stop a as e) {b c x : ℕ} (hb : b ∈ as) (hc : c ∈ as)
    (hbx : b ≤ x ∧ x < stop b) (hcx : c ≤ x ∧ x < stop c) : b = c := by
  rcases lt_trichotomy b c with hlt | heq | hgt
  · have := h.stop_le hb hc hlt
    omega
  · exact heq
  · have := h.stop_le hc hb hgt
    omega

/-- Every address of the range lies in some block. -/
theorem Tiles.cover (h : Tiles stop a as e) {x : ℕ} (hl : a ≤ x) (hr : x < e) :
    ∃ b ∈ as, b ≤ x ∧ x < stop b := by
  induction h with
  | nil a => omega
  | @cons a e as hlt ht ih =>
    by_cases hx : x < stop a
    · exact ⟨a, List.mem_cons_self, hl, hx⟩
    · obtain ⟨b, hb, hbx⟩ := ih (by omega) hr
      exact ⟨b, List.mem_cons_of_mem _ hb, hbx⟩

/-- Only the ends of the listed blocks matter. -/
theorem Tiles.congr (h : Tiles stop a as e) (heq : ∀ b ∈ as, stop' b = stop b) :
    Tiles stop' a as e := by
  induction h with
  | nil a => exact .nil a
  | @cons a e as hlt ht ih =>
    have hs := heq a List.mem_cons_self
    refine .cons (by omega) ?_
    rw [hs]
    exact ih fun b hb => heq b (List.mem_cons_of_mem _ hb)

theorem Tiles.snoc (h : Tiles stop a as e) (hlt : e < stop e) : Tiles stop a (as ++ [e]) (stop e) := by
  induction h with
  | nil a => exact .cons hlt (.nil _)
  | cons h' _ ih => exact .cons h' (ih hlt)

/-- Lay the listed blocks end to end from `base`, in order: each is paired with
the address it moves to. -/
def pack (size : ℕ → ℕ) : ℕ → List ℕ → List (ℕ × ℕ)
  | _, [] => []
  | base, b :: bs => (b, base) :: pack size (base + size b) bs

/-- Where the packed blocks end. -/
def packEnd (size : ℕ → ℕ) (base : ℕ) (bs : List ℕ) : ℕ := base + (bs.map size).sum

variable {size : ℕ → ℕ} {base : ℕ} {bs : List ℕ}

@[simp] theorem packEnd_nil : packEnd size base [] = base := rfl

@[simp] theorem packEnd_cons {b : ℕ} :
    packEnd size base (b :: bs) = packEnd size (base + size b) bs := by
  simp only [packEnd, List.map_cons, List.sum_cons]
  omega

theorem le_packEnd : base ≤ packEnd size base bs := Nat.le_add_right _ _

/-- A tiling is packed already. -/
theorem Tiles.packEnd_eq (h : Tiles stop a as e) (hsize : ∀ b ∈ as, stop b = b + size b) :
    packEnd size a as = e := by
  induction h with
  | nil a => rfl
  | @cons a e as hlt ht ih =>
    rw [packEnd_cons, ← hsize a List.mem_cons_self]
    exact ih fun b hb => hsize b (List.mem_cons_of_mem _ hb)

@[simp] theorem pack_map_fst : (pack size base bs).map Prod.fst = bs := by
  induction bs generalizing base with
  | nil => rfl
  | cons b bs ih => simp only [pack, List.map_cons, ih]

theorem pack_bounds {b d : ℕ} (h : (b, d) ∈ pack size base bs) :
    base ≤ d ∧ d + size b ≤ packEnd size base bs := by
  induction bs generalizing base with
  | nil => simp [pack] at h
  | cons c bs ih =>
    rw [packEnd_cons]
    rcases List.mem_cons.mp h with heq | h
    · obtain ⟨rfl, rfl⟩ := Prod.mk.inj heq
      exact ⟨le_rfl, le_packEnd⟩
    · have := ih h
      omega

/-- Packing keeps the order and leaves no overlap. -/
theorem pack_pairwise : (pack size base bs).Pairwise fun p q => p.2 + size p.1 ≤ q.2 := by
  induction bs generalizing base with
  | nil => exact List.Pairwise.nil
  | cons b bs ih => exact List.pairwise_cons.mpr ⟨fun q hq => (pack_bounds hq).1, ih⟩

/-- Blocks only ever move down: what is packed is a selection of the tiling. -/
theorem pack_le (ht : Tiles stop a as e) (hsub : bs.Sublist as)
    (hsize : ∀ b ∈ bs, b + size b = stop b) (hbase : base ≤ a) {b d : ℕ}
    (h : (b, d) ∈ pack size base bs) : d ≤ b := by
  induction ht generalizing bs base with
  | nil a =>
    rw [List.sublist_nil.mp hsub] at h
    simp [pack] at h
  | @cons a e as hlt ht ih =>
    cases hsub with
    | cons _ hsub => exact ih hsub hsize (by omega) h
    | @cons_cons bs' _ _ hsub =>
      have hs := hsize a List.mem_cons_self
      rcases List.mem_cons.mp h with heq | h
      · obtain ⟨rfl, rfl⟩ := Prod.mk.inj heq
        exact hbase
      · exact ih hsub (fun c hc => hsize c (List.mem_cons_of_mem _ hc)) (by omega) h

theorem packEnd_le (ht : Tiles stop a as e) (hsub : bs.Sublist as)
    (hsize : ∀ b ∈ bs, b + size b = stop b) (hbase : base ≤ a) : packEnd size base bs ≤ e := by
  induction ht generalizing bs base with
  | nil a =>
    rw [List.sublist_nil.mp hsub]
    exact hbase
  | @cons a e as hlt ht ih =>
    cases hsub with
    | cons _ hsub => exact ih hsub hsize (by omega)
    | @cons_cons bs' _ _ hsub =>
      have hs := hsize a List.mem_cons_self
      rw [packEnd_cons]
      exact ih hsub (fun c hc => hsize c (List.mem_cons_of_mem _ hc)) (by omega)

/-- Where packing sends block `b`, and `b` itself when it is not packed. -/
def packTo (size : ℕ → ℕ) (base : ℕ) (bs : List ℕ) (b : ℕ) : ℕ :=
  ((pack size base bs).lookup b).getD b

theorem pack_lookup (hnd : bs.Nodup) {b d : ℕ} (h : (b, d) ∈ pack size base bs) :
    (pack size base bs).lookup b = some d := by
  induction bs generalizing base with
  | nil => simp [pack] at h
  | cons c bs ih =>
    have hnd' := List.nodup_cons.mp hnd
    rcases List.mem_cons.mp h with heq | h
    · obtain ⟨rfl, rfl⟩ := Prod.mk.inj heq
      simp [pack]
    · have hb : b ∈ bs := by
        have := List.mem_map_of_mem (f := Prod.fst) h
        rwa [pack_map_fst] at this
      have hne : (b == c) = false := by
        rw [beq_eq_false_iff_ne]
        rintro rfl
        exact hnd'.1 hb
      rw [pack, List.lookup_cons, hne]
      exact ih hnd'.2 h

theorem packTo_of_mem (hnd : bs.Nodup) {b d : ℕ} (h : (b, d) ∈ pack size base bs) :
    packTo size base bs b = d := by
  rw [packTo, pack_lookup hnd h, Option.getD_some]

theorem mem_pack_packTo (hnd : bs.Nodup) {b : ℕ} (hb : b ∈ bs) :
    (b, packTo size base bs b) ∈ pack size base bs := by
  rw [← @pack_map_fst size base bs] at hb
  obtain ⟨⟨b', d⟩, h, rfl⟩ := List.mem_map.mp hb
  rwa [packTo_of_mem hnd h]

theorem pack_eq_map (hnd : bs.Nodup) :
    pack size base bs = bs.map fun b => (b, packTo size base bs b) := by
  conv_lhs => rw [← List.map_id (pack size base bs)]
  conv_rhs => rw [← @pack_map_fst size base bs, List.map_map]
  refine List.map_congr_left ?_
  rintro ⟨b, d⟩ h
  simp only [id_eq, Function.comp_apply, pack_map_fst]
  rw [packTo_of_mem hnd h]

theorem packTo_mono (hsort : bs.Pairwise (· < ·)) {b c : ℕ} (hb : b ∈ bs) (hc : c ∈ bs)
    (hlt : b < c) : packTo size base bs b + size b ≤ packTo size base bs c := by
  have hnd : bs.Nodup := hsort.imp fun h => by omega
  have key : bs.Pairwise fun x y => packTo size base bs x + size x ≤ packTo size base bs y := by
    have hp := @pack_pairwise size base bs
    rw [pack_eq_map hnd, List.pairwise_map] at hp
    exact hp
  clear hnd
  generalize packTo size base bs = f at key ⊢
  induction bs with
  | nil => simp at hb
  | cons x xs ih =>
    rw [List.pairwise_cons] at key hsort
    rcases List.mem_cons.mp hb with rfl | hb' <;> rcases List.mem_cons.mp hc with rfl | hc'
    · omega
    · exact key.1 c hc'
    · have := hsort.1 b hb'
      omega
    · exact ih hsort.2 hb' hc' key.2

/-- The packed blocks tile the range they were packed into. -/
theorem pack_tiles (hpos : ∀ b ∈ bs, 0 < size b)
    (hstop : ∀ b d, (b, d) ∈ pack size base bs → stop' d = d + size b) :
    Tiles stop' base ((pack size base bs).map Prod.snd) (packEnd size base bs) := by
  induction bs generalizing base with
  | nil => exact .nil _
  | cons b bs ih =>
    have hs := hstop b base List.mem_cons_self
    have hp := hpos b List.mem_cons_self
    rw [pack, List.map_cons, packEnd_cons]
    refine .cons (by omega) ?_
    rw [hs]
    exact ih (fun c hc => hpos c (List.mem_cons_of_mem _ hc))
      fun c d hcd => hstop c d (List.mem_cons_of_mem _ hcd)

end Tiling
