import QuinLang.Compiler.Spelling

/-! Matching type names: exact on the names, and the same on their spellings. -/

namespace QuinLang

section Names

variable {binders : List String} {σ τ : Subst}

/-- What a substitution puts for a name. -/
def Subst.value (σ : Subst) (n : String) : TypeName := (σ.lookup n).getD (.named n)

/-- A substitution for the parameters only. -/
def Subst.Over (σ : Subst) (binders : List String) : Prop := ∀ n, n ∉ binders → σ.lookup n = none

/-- Every binding is the value that `σ` has. -/
def Subst.Agrees (subs σ : Subst) : Prop := ∀ n v, subs.lookup n = some v → v = σ.value n

/-- Every binding is one of `τ`. -/
def Subst.Within (subs τ : Subst) : Prop := ∀ n v, subs.lookup n = some v → τ.lookup n = some v

inductive TypeName.Mentions (n : String) : TypeName → Prop
  | named : Mentions n (.named n)
  | app {base : String} {args : List TypeName} {t : TypeName} : t ∈ args → Mentions n t → Mentions n (.app base args)
  | param {params : List TypeName} {t ret : TypeName} : t ∈ params → Mentions n t → Mentions n (.fn params ret)
  | ret {params : List TypeName} {ret : TypeName} : Mentions n ret → Mentions n (.fn params ret)

theorem lookup_append_new {subs : Subst} {n : String} {v : TypeName} (h : subs.lookup n = none) (m : String) :
    (subs ++ [(n, v)]).lookup m = if m = n then some v else subs.lookup m := by
  rw [List.lookup_append]
  by_cases hm : m = n
  · subst hm
    rw [h, if_pos rfl]
    simp [List.lookup]
  · rw [if_neg hm]
    cases subs.lookup m with
    | some w => rfl
    | none =>
      have hne : (m == n) = false := by simpa using hm
      simp [List.lookup, hne]

-- Derives the equations once, for all the proofs below.
attribute [local simp] unifyTypeName unifyTypeNames substituteTypeName substituteTypeNames

theorem unify_unbound {n : String} (hn : n ∈ binders) (t : TypeName) {subs : Subst} (h : subs.lookup n = none) :
    unifyTypeName binders (.named n) t subs = (true, subs ++ [(n, t)]) := by
  rw [unifyTypeName, if_pos hn, h]

theorem unify_bound {n : String} (hn : n ∈ binders) (t : TypeName) {subs : Subst} {bound : TypeName}
    (h : subs.lookup n = some bound) : unifyTypeName binders (.named n) t subs = (bound == t, subs) := by
  rw [unifyTypeName, if_pos hn, h]

theorem unify_const {n : String} (hn : n ∉ binders) (t : TypeName) (subs : Subst) :
    unifyTypeName binders (.named n) t subs = (TypeName.named n == t, subs) := by
  rw [unifyTypeName, if_neg hn]

theorem substituteTypeNames_eq_map (ts : List TypeName) : substituteTypeNames σ ts = ts.map (substituteTypeName σ) := by
  induction ts with
  | nil => rfl
  | cons t ts ih => rw [substituteTypeNames, ih, List.map_cons]

/-- What a match does: it keeps the bindings it is given, binds nothing but parameters, and
when it succeeds every parameter of the pattern is bound and the bindings, or more of them,
turn the pattern into the type. -/
structure Matches (binders : List String) (p t : TypeName) (subs : Subst) : Prop where
  keeps : subs.Within (unifyTypeName binders p t subs).2
  confined : subs.Over binders → (unifyTypeName binders p t subs).2.Over binders
  sound : (unifyTypeName binders p t subs).1 = true →
    (∀ n ∈ binders, p.Mentions n → ((unifyTypeName binders p t subs).2.lookup n).isSome = true) ∧
    ∀ τ : Subst, (unifyTypeName binders p t subs).2.Within τ → τ.Over binders → substituteTypeName τ p = t
  complete : ∀ σ : Subst, σ.Over binders → substituteTypeName σ p = t → subs.Agrees σ →
    (unifyTypeName binders p t subs).1 = true ∧ (unifyTypeName binders p t subs).2.Agrees σ

/-- The same of a list of patterns. -/
structure MatchesAll (binders : List String) (ps ts : List TypeName) (subs : Subst) : Prop where
  keeps : subs.Within (unifyTypeNames binders ps ts subs).2
  confined : subs.Over binders → (unifyTypeNames binders ps ts subs).2.Over binders
  sound : (unifyTypeNames binders ps ts subs).1 = true → ps.length = ts.length →
    (∀ n ∈ binders, ∀ p ∈ ps, p.Mentions n → ((unifyTypeNames binders ps ts subs).2.lookup n).isSome = true) ∧
    ∀ τ : Subst, (unifyTypeNames binders ps ts subs).2.Within τ → τ.Over binders → ps.map (substituteTypeName τ) = ts
  complete : ∀ σ : Subst, σ.Over binders → ps.map (substituteTypeName σ) = ts → subs.Agrees σ →
    (unifyTypeNames binders ps ts subs).1 = true ∧ (unifyTypeNames binders ps ts subs).2.Agrees σ

theorem Subst.Within.trans {a b c : Subst} (h : a.Within b) (h' : b.Within c) : a.Within c := fun n v hv => h' n v (h n v hv)

theorem Subst.Within.isSome {a b : Subst} (h : a.Within b) {n : String} (hn : (a.lookup n).isSome = true) :
    (b.lookup n).isSome = true := by
  obtain ⟨v, hv⟩ := Option.isSome_iff_exists.mp hn
  rw [h n v hv]
  rfl

theorem Matches.const {p t : TypeName} {subs : Subst} (heq : unifyTypeName binders p t subs = (p == t, subs))
    (hmention : ∀ n ∈ binders, ¬ p.Mentions n) (hsubst : ∀ τ : Subst, τ.Over binders → substituteTypeName τ p = p) :
    Matches binders p t subs := by
  refine ⟨?_, ?_, ?_, ?_⟩ <;> rw [heq]
  · exact fun _ _ h => h
  · exact fun h => h
  · intro hb
    obtain rfl : p = t := by simpa using hb
    exact ⟨fun n hn h => absurd h (hmention n hn), fun τ _ hτ => hsubst τ hτ⟩
  · intro σ hσ hp hagrees
    rw [hsubst σ hσ] at hp
    exact ⟨by simpa using hp, hagrees⟩

theorem unify_named (n : String) (t : TypeName) (subs : Subst) : Matches binders (.named n) t subs := by
  by_cases hn : n ∈ binders
  · cases hl : subs.lookup n with
    | none =>
      have heq := unify_unbound hn t hl
      refine ⟨?_, ?_, ?_, ?_⟩ <;> rw [heq]
      · intro m v hv
        rw [lookup_append_new hl, if_neg]
        · exact hv
        · rintro rfl
          rw [hl] at hv
          cases hv
      · intro hover m hm
        rw [lookup_append_new hl, if_neg (fun h : m = n => hm (h ▸ hn))]
        exact hover m hm
      · refine fun _ => ⟨?_, fun τ hτ _ => ?_⟩
        · intro m _ hmentions
          cases hmentions
          rw [lookup_append_new hl, if_pos rfl]
          rfl
        · rw [substituteTypeName, hτ n t (by rw [lookup_append_new hl, if_pos rfl])]
          rfl
      · intro σ _ hσ hagrees
        refine ⟨rfl, fun m v hv => ?_⟩
        rw [lookup_append_new hl] at hv
        by_cases hm : m = n
        · rw [if_pos hm] at hv
          cases hv
          rw [hm]
          exact hσ.symm
        · rw [if_neg hm] at hv
          exact hagrees m v hv
    | some bound =>
      have heq := unify_bound hn t hl
      refine ⟨?_, ?_, ?_, ?_⟩ <;> rw [heq]
      · exact fun _ _ h => h
      · exact fun h => h
      · intro hb
        obtain rfl : bound = t := by simpa using hb
        refine ⟨fun m _ hmentions => ?_, fun τ hτ _ => ?_⟩
        · cases hmentions
          rw [hl]
          rfl
        · rw [substituteTypeName, hτ n bound hl]
          rfl
      · intro σ _ hσ hagrees
        refine ⟨?_, hagrees⟩
        rw [hagrees n bound hl, ← hσ]
        exact beq_self_eq_true _
  · refine .const (unify_const hn t subs) (fun m hm hmentions => ?_) fun τ hτ => ?_
    · cases hmentions
      exact absurd hm hn
    · rw [substituteTypeName, hτ n hn]
      rfl

theorem Matches.fails {p t : TypeName} {subs : Subst} (heq : unifyTypeName binders p t subs = (false, subs))
    (hne : ∀ σ, substituteTypeName σ p ≠ t) : Matches binders p t subs := by
  refine ⟨?_, ?_, ?_, ?_⟩ <;> rw [heq]
  · exact fun _ _ h => h
  · exact fun h => h
  · exact fun h => by cases h
  · exact fun σ _ hσ => absurd hσ (hne σ)

/-- Where one list is at its end. -/
theorem MatchesAll.ended {ps ts : List TypeName} {subs : Subst} (heq : unifyTypeNames binders ps ts subs = (true, subs))
    (hend : ps = [] ∨ ts = []) : MatchesAll binders ps ts subs := by
  refine ⟨?_, ?_, ?_, ?_⟩ <;> rw [heq]
  · exact fun _ _ h => h
  · exact fun h => h
  · intro _ hlen
    obtain ⟨rfl, rfl⟩ : ps = [] ∧ ts = [] := by
      rcases hend with rfl | rfl
      · exact ⟨rfl, List.eq_nil_of_length_eq_zero hlen.symm⟩
      · exact ⟨List.eq_nil_of_length_eq_zero hlen, rfl⟩
    exact ⟨fun _ _ p hp => absurd hp List.not_mem_nil, fun _ _ _ => rfl⟩
  · exact fun _ _ _ hagrees => ⟨rfl, hagrees⟩

theorem MatchesAll.cons {p t : TypeName} {ps ts : List TypeName} {subs : Subst} (h : Matches binders p t subs)
    (ih : MatchesAll binders ps ts (unifyTypeName binders p t subs).2) : MatchesAll binders (p :: ps) (t :: ts) subs := by
  cases hb : (unifyTypeName binders p t subs).1 with
  | false =>
    have heq : unifyTypeNames binders (p :: ps) (t :: ts) subs = (false, (unifyTypeName binders p t subs).2) := by
      rw [unifyTypeNames]
      rw [← Prod.eta (unifyTypeName binders p t subs), hb]
    refine ⟨?_, ?_, ?_, ?_⟩ <;> rw [heq]
    · exact h.keeps
    · exact h.confined
    · exact fun hf => by cases hf
    · intro σ hσ hmap hagrees
      have := (h.complete σ hσ (List.cons_eq_cons.mp hmap).1 hagrees).1
      rw [hb] at this
      cases this
  | true =>
    have heq : unifyTypeNames binders (p :: ps) (t :: ts) subs =
        unifyTypeNames binders ps ts (unifyTypeName binders p t subs).2 := by
      rw [unifyTypeNames]
      rw [← Prod.eta (unifyTypeName binders p t subs), hb]
    refine ⟨?_, ?_, ?_, ?_⟩ <;> rw [heq]
    · exact h.keeps.trans ih.keeps
    · exact fun hover => ih.confined (h.confined hover)
    · intro hrest hlen
      obtain ⟨hmentions, hsubst⟩ := h.sound hb
      obtain ⟨hmentions', hsubst'⟩ := ih.sound hrest (Nat.succ.inj hlen)
      refine ⟨fun n hn q hq hmention => ?_, fun τ hτ hover => ?_⟩
      · rcases List.mem_cons.mp hq with rfl | hq
        · exact ih.keeps.isSome (hmentions n hn hmention)
        · exact hmentions' n hn q hq hmention
      · rw [List.map_cons, hsubst τ (ih.keeps.trans hτ) hover, hsubst' τ hτ hover]
    · intro σ hσ hmap hagrees
      obtain ⟨hp, hps⟩ := List.cons_eq_cons.mp hmap
      exact ih.complete σ hσ hps (h.complete σ hσ hp hagrees).2

theorem unify_app {base base' : String} {args args' : List TypeName} {subs : Subst} (ih : MatchesAll binders args args' subs) :
    Matches binders (.app base args) (.app base' args') subs := by
  by_cases hshape : base ≠ base' ∨ args.length ≠ args'.length
  · refine .fails (by rw [unifyTypeName, if_pos hshape]) fun σ hσ => ?_
    rw [substituteTypeName, substituteTypeNames_eq_map] at hσ
    obtain ⟨hbase, hargs⟩ := TypeName.app.inj hσ
    refine hshape.elim (fun h => h hbase) fun h => h ?_
    rw [← hargs, List.length_map]
  · have heq : unifyTypeName binders (.app base args) (.app base' args') subs = unifyTypeNames binders args args' subs := by
      rw [unifyTypeName, if_neg hshape]
    rw [not_or, not_not, not_not] at hshape
    obtain ⟨rfl, hlen⟩ := hshape
    refine ⟨?_, ?_, ?_, ?_⟩ <;> rw [heq]
    · exact ih.keeps
    · exact ih.confined
    · intro hb
      obtain ⟨hmentions, hsubst⟩ := ih.sound hb hlen
      refine ⟨fun n hn hmention => ?_, fun τ hτ hover => ?_⟩
      · cases hmention with
        | app hp hmention => exact hmentions n hn _ hp hmention
      · rw [substituteTypeName, substituteTypeNames_eq_map, hsubst τ hτ hover]
    · intro σ hσ hp hagrees
      rw [substituteTypeName, substituteTypeNames_eq_map] at hp
      exact ih.complete σ hσ (TypeName.app.inj hp).2 hagrees

theorem unify_fn {params params' : List TypeName} {ret ret' : TypeName} {subs : Subst}
    (ih : MatchesAll binders params params' subs) (ihr : Matches binders ret ret' (unifyTypeNames binders params params' subs).2) :
    Matches binders (.fn params ret) (.fn params' ret') subs := by
  by_cases hlen : params.length = params'.length
  · cases hb : (unifyTypeNames binders params params' subs).1 with
    | false =>
      have heq : unifyTypeName binders (.fn params ret) (.fn params' ret') subs =
          (false, (unifyTypeNames binders params params' subs).2) := by
        rw [unifyTypeName, if_neg (not_not.mpr hlen)]
        rw [← Prod.eta (unifyTypeNames binders params params' subs), hb]
      refine ⟨?_, ?_, ?_, ?_⟩ <;> rw [heq]
      · exact ih.keeps
      · exact ih.confined
      · exact fun hf => by cases hf
      · intro σ hσ hp hagrees
        rw [substituteTypeName, substituteTypeNames_eq_map] at hp
        have := (ih.complete σ hσ (TypeName.fn.inj hp).1 hagrees).1
        rw [hb] at this
        cases this
    | true =>
      have heq : unifyTypeName binders (.fn params ret) (.fn params' ret') subs =
          unifyTypeName binders ret ret' (unifyTypeNames binders params params' subs).2 := by
        rw [unifyTypeName, if_neg (not_not.mpr hlen)]
        rw [← Prod.eta (unifyTypeNames binders params params' subs), hb]
      refine ⟨?_, ?_, ?_, ?_⟩ <;> rw [heq]
      · exact ih.keeps.trans ihr.keeps
      · exact fun hover => ihr.confined (ih.confined hover)
      · intro hr
        obtain ⟨hmentions, hsubst⟩ := ih.sound hb hlen
        obtain ⟨hmentions', hsubst'⟩ := ihr.sound hr
        refine ⟨fun n hn hmention => ?_, fun τ hτ hover => ?_⟩
        · cases hmention with
          | param hp hmention => exact ihr.keeps.isSome (hmentions n hn _ hp hmention)
          | ret hmention => exact hmentions' n hn hmention
        · rw [substituteTypeName, substituteTypeNames_eq_map, hsubst τ (ihr.keeps.trans hτ) hover, hsubst' τ hτ hover]
      · intro σ hσ hp hagrees
        rw [substituteTypeName, substituteTypeNames_eq_map] at hp
        obtain ⟨hparams, hret⟩ := TypeName.fn.inj hp
        exact ihr.complete σ hσ hret (ih.complete σ hσ hparams hagrees).2
  · refine .fails (by rw [unifyTypeName, if_pos hlen]) fun σ hσ => hlen ?_
    rw [substituteTypeName, substituteTypeNames_eq_map] at hσ
    rw [← (TypeName.fn.inj hσ).1, List.length_map]

mutual

theorem unify_matches : ∀ (p t : TypeName) (subs : Subst), Matches binders p t subs
  | .named n, t, subs => unify_named n t subs
  | .frameArray n, t, subs => .const (by rw [unifyTypeName]) (fun _ _ h => by cases h) fun _ _ => by rw [substituteTypeName]
  | .app _ args, .app _ args', subs => unify_app (unify_matchesAll args args' subs)
  | .fn params ret, .fn params' ret', subs => unify_fn (unify_matchesAll params params' subs) (unify_matches ret ret' _)
  | .app _ _, .named _, subs => .fails (by rw [unifyTypeName]; all_goals simp) fun σ h => by rw [substituteTypeName] at h; cases h
  | .app _ _, .frameArray _, subs => .fails (by rw [unifyTypeName]; all_goals simp) fun σ h => by rw [substituteTypeName] at h; cases h
  | .app _ _, .fn _ _, subs => .fails (by rw [unifyTypeName]; all_goals simp) fun σ h => by rw [substituteTypeName] at h; cases h
  | .fn _ _, .named _, subs => .fails (by rw [unifyTypeName]; all_goals simp) fun σ h => by rw [substituteTypeName] at h; cases h
  | .fn _ _, .frameArray _, subs => .fails (by rw [unifyTypeName]; all_goals simp) fun σ h => by rw [substituteTypeName] at h; cases h
  | .fn _ _, .app _ _, subs => .fails (by rw [unifyTypeName]; all_goals simp) fun σ h => by rw [substituteTypeName] at h; cases h

theorem unify_matchesAll : ∀ (ps ts : List TypeName) (subs : Subst), MatchesAll binders ps ts subs
  | [], ts, subs => .ended (by rw [unifyTypeNames]; simp) (.inl rfl)
  | p :: ps, t :: ts, subs => .cons (unify_matches p t subs) (unify_matchesAll ps ts _)
  | p :: ps, [], subs => .ended (by rw [unifyTypeNames]; simp) (.inr rfl)

end

end Names

section Spellings

variable {P : Identifiers} {p t : TypeName}

/-- The base and the arguments of an application. -/
def TypeName.appParts : TypeName → Option (List Char × List (List Char))
  | .app base args => some (base.toList, args.map letters)
  | _ => none

def TypeName.fnParts : TypeName → Option (List (List Char) × List Char)
  | .fn params ret => some (params.map letters, ret.letters)
  | _ => none

theorem application_letters {base : String} {args : List TypeName} (h : (TypeName.app base args).Wellformed)
    (hid : P.isidentifier base.toList = true) :
    genericApplication P (TypeName.app base args).letters = .ok (some (base.toList, args.map TypeName.letters)) := by
  cases h with
  | app hbase hne hargs =>
    rw [TypeName.letters_app]
    exact genericApplication_app hbase hid (pieces_of_wellformed hargs) (by simpa using hne)

theorem application_fn {params : List TypeName} {ret : TypeName} :
    genericApplication P (TypeName.fn params ret).letters = .ok none := by
  rw [TypeName.letters_fn]
  exact genericApplication_fn _

theorem genericApplication_letters (h : t.Wellformed) (hc : t.Concrete P) :
    genericApplication P t.letters = .ok t.appParts := by
  cases h with
  | named h => exact genericApplication_plain h.plain
  | frameArray n => exact genericApplication_plain (frameArray_plain n)
  | app hbase hne hargs =>
    cases hc with
    | app hid _ => exact application_letters (.app hbase hne hargs) hid
  | fn => exact application_fn

theorem funcSignature_letters (h : t.Wellformed) : funcSignature t.letters = .ok t.fnParts := by
  cases h with
  | named h => exact funcSignature_plain h.plain
  | frameArray n => exact funcSignature_plain (frameArray_plain n)
  | app hbase =>
    rw [TypeName.letters_app]
    exact funcSignature_app hbase _
  | fn hparams hret =>
    rw [TypeName.letters_fn]
    exact funcSignature_fn (pieces_of_wellformed hparams) hret.piece

/-- Every name would do. -/
def anyName : Identifiers where
  isidentifier s := '(' ∉ s
  letters s _ h := by simpa using fun hmem => absurd (h '(' hmem) (by decide)
  no_paren s h := by simpa using h

theorem concrete_anyName (h : t.Wellformed) : t.Concrete anyName := by
  induction h with
  | named => exact .named _
  | frameArray => exact .frameArray _
  | app hbase _ _ ih => exact .app (decide_eq_true fun hmem => (hbase.plain _ hmem).1 rfl) ih
  | fn _ _ ih hret => exact .fn ih hret

theorem map_letters_inj {as bs : List TypeName} (hb : ∀ t ∈ bs, t.Wellformed)
    (ih : ∀ t ∈ as, ∀ u : TypeName, u.Wellformed → t.letters = u.letters → t = u)
    (h : as.map TypeName.letters = bs.map TypeName.letters) : as = bs := by
  induction as generalizing bs with
  | nil => exact (List.map_eq_nil_iff.mp h.symm).symm
  | cons a as iha =>
    cases bs with
    | nil => cases h
    | cons b bs =>
      obtain ⟨h₁, h₂⟩ := List.cons_eq_cons.mp h
      rw [ih a List.mem_cons_self b (hb b List.mem_cons_self) h₁,
        iha (fun t ht => hb t (List.mem_cons_of_mem _ ht)) (fun t ht => ih t (List.mem_cons_of_mem _ ht)) h₂]

/-- Different types are spelled differently. -/
theorem letters_inj (hp : p.Wellformed) (ht : t.Wellformed) (h : p.letters = t.letters) : p = t := by
  induction hp generalizing t with
  | @named n hn =>
    have happ := genericApplication_letters ht (concrete_anyName ht)
    have hsig := funcSignature_letters ht
    rw [← h] at happ hsig
    cases ht with
    | named => exact congrArg _ (String.toList_inj.mp h)
    | frameArray length =>
      rw [TypeName.letters_named, TypeName.letters_frameArray] at h
      exact absurd (by rw [h]; simp) hn.no_bracket
    | app => cases happ.symm.trans (genericApplication_plain hn.plain)
    | fn => cases hsig.symm.trans (funcSignature_plain hn.plain)
  | frameArray length =>
    have happ := genericApplication_letters ht (concrete_anyName ht)
    have hsig := funcSignature_letters ht
    rw [← h] at happ hsig
    cases ht with
    | @named n hn =>
      rw [TypeName.letters_named, TypeName.letters_frameArray] at h
      exact absurd (by rw [← h]; simp) hn.no_bracket
    | frameArray length' =>
      rw [TypeName.letters_frameArray, TypeName.letters_frameArray] at h
      have hdigits := congrArg (Nat.ofDigitChars 10 · 0) (List.append_cancel_right (List.append_cancel_left h))
      simpa [Nat.ofDigitChars_ten_toDigits] using hdigits
    | app => cases happ.symm.trans (genericApplication_plain (frameArray_plain _))
    | fn => cases hsig.symm.trans (funcSignature_plain (frameArray_plain _))
  | @app base args hbase hne hargs ih =>
    have hw := TypeName.Wellformed.app hbase hne hargs
    have happ := (genericApplication_letters hw (concrete_anyName hw)).symm.trans
      (h ▸ genericApplication_letters ht (concrete_anyName ht))
    cases ht with
    | app hbase' hne' hargs' =>
      obtain ⟨h₁, h₂⟩ := Prod.mk.inj (Option.some.inj (Except.ok.inj happ))
      rw [String.toList_inj.mp h₁, map_letters_inj hargs' (fun t ht u hu => ih t ht hu) h₂]
    | named => cases happ
    | frameArray => cases happ
    | fn => cases happ
  | @fn params ret hparams hret ih ihr =>
    have hsig := (funcSignature_letters (.fn hparams hret)).symm.trans (h ▸ funcSignature_letters ht)
    cases ht with
    | fn hparams' hret' =>
      obtain ⟨h₁, h₂⟩ := Prod.mk.inj (Option.some.inj (Except.ok.inj hsig))
      rw [map_letters_inj hparams' (fun t ht u hu => ih t ht hu) h₁, ihr hret' h₂]
    | named => cases hsig
    | frameArray => cases hsig
    | app => cases hsig

def textSubst (subs : Subst) : TextSubst := subs.map (Prod.map String.toList TypeName.letters)

theorem lookup_textSubst (subs : Subst) (n : String) :
    (textSubst subs).lookup n.toList = (subs.lookup n).map TypeName.letters := by
  induction subs with
  | nil => rfl
  | cons e subs ih =>
    obtain ⟨m, v⟩ := e
    show List.lookup n.toList ((m.toList, v.letters) :: textSubst subs) = _
    by_cases h : n = m
    · subst h
      simp [List.lookup]
    · have hne : (n.toList == m.toList) = false := by simpa using fun heq => h (String.toList_inj.mp heq)
      have hne' : (n == m) = false := by simpa using h
      rw [List.lookup, hne, List.lookup, hne']
      exact ih

theorem lookup_textSubst_none {subs : Subst} {s : List Char} (h : ∀ e ∈ subs, e.1.toList ≠ s) :
    (textSubst subs).lookup s = none := by
  rw [List.lookup_eq_none_iff]
  intro e he
  obtain ⟨e', he', rfl⟩ := List.mem_map.mp he
  simpa using fun heq => h e' he' heq.symm

theorem length_le_join {s : List Char} {ss : List (List Char)} (h : s ∈ ss) : s.length ≤ (join ss).length := by
  induction ss with
  | nil => cases h
  | cons u ss ih =>
    cases ss with
    | nil =>
      rw [List.mem_singleton] at h
      rw [h, join_singleton]
    | cons v ss =>
      rw [join_cons, List.length_append, List.length_cons]
      rcases List.mem_cons.mp h with rfl | h
      · omega
      · have := ih h
        omega

theorem length_app (base : String) {args : List TypeName} (h : t ∈ args) :
    t.letters.length < (TypeName.app base args).letters.length := by
  have := length_le_join (List.mem_map_of_mem (f := TypeName.letters) h)
  rw [TypeName.letters_app, List.length_append, List.length_cons, List.length_append]
  omega

theorem length_param {params : List TypeName} (ret : TypeName) (h : t ∈ params) :
    t.letters.length < (TypeName.fn params ret).letters.length := by
  have := length_le_join (List.mem_map_of_mem (f := TypeName.letters) h)
  rw [TypeName.letters_fn, List.length_append, List.length_append, List.length_cons]
  omega

theorem length_ret (params : List TypeName) (ret : TypeName) : ret.letters.length < (TypeName.fn params ret).letters.length := by
  rw [TypeName.letters_fn, List.length_append, List.length_append, List.length_cons, List.length_cons]
  omega

theorem app_not_name (base : String) (args : List TypeName) : ¬ NameText (TypeName.app base args).letters := by
  intro h
  exact (h.plain '<' (by rw [TypeName.letters_app]; simp)).2.2.1 rfl

theorem fn_not_name (params : List TypeName) (ret : TypeName) : ¬ NameText (TypeName.fn params ret).letters := by
  intro h
  exact (h.plain '(' (by rw [TypeName.letters_fn]; simp [FUNC_PREFIX])).1 rfl

theorem frameArray_not_name {n : ℕ} : ¬ NameText (TypeName.frameArray n).letters := by
  intro h
  exact h.no_bracket (by rw [TypeName.letters_frameArray]; simp)

theorem mapM_letters {f : List Char → Except TypeNameError (List Char)} {g : TypeName → TypeName} {ts : List TypeName}
    (h : ∀ t ∈ ts, f t.letters = .ok (g t).letters) :
    (ts.map TypeName.letters).mapM f = .ok ((ts.map g).map TypeName.letters) := by
  induction ts with
  | nil => rfl
  | cons t ts ih =>
    rw [List.map_cons, List.mapM_cons, h t List.mem_cons_self, ih fun u hu => h u (List.mem_cons_of_mem _ hu)]
    rfl

/-- Substituting in a spelling is substituting in the name. -/
theorem substituteLoop_letters {subs : Subst} (hsubs : ∀ e ∈ subs, NameText e.1.toList) (hp : p.Wellformed) (hc : p.Concrete P)
    (fuel : ℕ) (hfuel : p.letters.length < fuel) :
    substituteLoop P (textSubst subs) fuel p.letters = .ok (substituteTypeName subs p).letters := by
  have hnone {q : TypeName} (h : ¬ NameText q.letters) : (textSubst subs).lookup q.letters = none :=
    lookup_textSubst_none fun e he heq => h (heq ▸ hsubs e he)
  induction hp generalizing fuel with
  | @named n hn =>
    obtain ⟨fuel, rfl⟩ := Nat.exists_eq_succ_of_ne_zero (Nat.ne_of_gt (Nat.zero_lt_of_lt hfuel))
    rw [substituteLoop, TypeName.letters_named, lookup_textSubst, substituteTypeName]
    cases subs.lookup n with
    | some v => rfl
    | none =>
      show (genericApplication P n.toList >>= _) = _
      rw [genericApplication_plain hn.plain]
      show (funcSignature n.toList >>= _) = _
      rw [funcSignature_plain hn.plain]
      rfl
  | frameArray length =>
    obtain ⟨fuel, rfl⟩ := Nat.exists_eq_succ_of_ne_zero (Nat.ne_of_gt (Nat.zero_lt_of_lt hfuel))
    rw [substituteLoop, hnone frameArray_not_name, substituteTypeName]
    show (genericApplication P _ >>= _) = _
    rw [genericApplication_plain (frameArray_plain length)]
    show (funcSignature _ >>= _) = _
    rw [funcSignature_plain (frameArray_plain length)]
    rfl
  | @app base args hbase hne hargs ih =>
    obtain ⟨fuel, rfl⟩ := Nat.exists_eq_succ_of_ne_zero (Nat.ne_of_gt (Nat.zero_lt_of_lt hfuel))
    rw [substituteLoop, hnone (app_not_name base args), substituteTypeName, substituteTypeNames_eq_map]
    show (genericApplication P _ >>= _) = _
    rw [genericApplication_letters (.app hbase hne hargs) hc]
    cases hc with
    | app hid hcs =>
      show ((args.map TypeName.letters).mapM (substituteLoop P (textSubst subs) fuel) >>= _) = _
      rw [mapM_letters fun t ht => ih t ht (hcs t ht) fuel (by have := length_app base ht; omega)]
      rw [TypeName.letters_app]
      rfl
  | @fn params ret hparams hret ih ihr =>
    obtain ⟨fuel, rfl⟩ := Nat.exists_eq_succ_of_ne_zero (Nat.ne_of_gt (Nat.zero_lt_of_lt hfuel))
    rw [substituteLoop, hnone (fn_not_name params ret), substituteTypeName, substituteTypeNames_eq_map]
    show (genericApplication P _ >>= _) = _
    rw [genericApplication_letters (.fn hparams hret) hc]
    show (funcSignature _ >>= _) = _
    rw [funcSignature_letters (.fn hparams hret)]
    cases hc with
    | fn hcs hcr =>
      show ((params.map TypeName.letters).mapM (substituteLoop P (textSubst subs) fuel) >>= _) = _
      rw [mapM_letters fun t ht => ih t ht (hcs t ht) fuel (by have := length_param ret ht; omega)]
      show (substituteLoop P (textSubst subs) fuel ret.letters >>= _) = _
      rw [ihr hcr fuel (by have := length_ret params ret; omega), TypeName.letters_fn]
      rfl

/-- The names that are bound stand for types. -/
def Subst.Wellformed (subs : Subst) : Prop := ∀ n v, subs.lookup n = some v → v.Wellformed

/-- A match of spellings is the match of the names, and binds types. -/
structure SpelledMatch (P : Identifiers) (binders : List String) (fuel : ℕ) (p t : TypeName) (subs : Subst) : Prop where
  result : unifyLoop P (binders.map String.toList) fuel p.letters t.letters (textSubst subs) =
    (.ok (unifyTypeName binders p t subs).1, textSubst (unifyTypeName binders p t subs).2)
  wellformed : (unifyTypeName binders p t subs).2.Wellformed

variable {binders : List String} {fuel : ℕ} {subs : Subst}

theorem letters_notMem (hb : ∀ n ∈ binders, NameText n.toList) (h : ¬ NameText p.letters) :
    p.letters ∉ binders.map String.toList := by
  intro hmem
  obtain ⟨n, hn, heq⟩ := List.mem_map.mp hmem
  exact h (heq ▸ hb n hn)

theorem letters_beq (hp : p.Wellformed) (ht : t.Wellformed) : (p.letters == t.letters) = (p == t) := by
  by_cases h : p = t
  · simp [h]
  · have hne : p.letters ≠ t.letters := fun heq => h (letters_inj hp ht heq)
    simp [h, hne]

-- Derives the equations once, for all the proofs below.
attribute [local simp] unifyLoop unifySignatures

/-- A spelling that is neither a parameter nor taken apart is compared as it stands. -/
theorem SpelledMatch.const (hp : p.Wellformed) (ht : t.Wellformed) (hc : t.Concrete P) (hmem : p.letters ∉ binders.map String.toList)
    (happ : genericApplication P p.letters = .ok none) (hsig : p.fnParts = none)
    (heq : unifyTypeName binders p t subs = (p == t, subs)) (hsubs : subs.Wellformed) :
    SpelledMatch P binders (fuel + 1) p t subs := by
  refine ⟨?_, by rw [heq]; exact hsubs⟩
  have happ' := genericApplication_letters ht hc
  have hsig' := funcSignature_letters ht
  rw [heq, unifyLoop, if_neg hmem, happ, happ']
  cases ht with
  | @app base args hbase hne hargs =>
    have hpt : (p == TypeName.app base args) = false := by
      by_contra h
      obtain rfl := by simpa using h
      cases happ.symm.trans happ'
    rw [hpt]
    rfl
  | @fn params ret hparams hret =>
    have hpt : (p == TypeName.fn params ret) = false := by
      by_contra h
      obtain rfl := by simpa using h
      cases hsig
    show unifySignatures _ _ _ _ = _
    rw [unifySignatures, funcSignature_letters hp, hsig, hsig', hpt]
    rfl
  | named h =>
    show unifySignatures _ _ _ _ = _
    rw [unifySignatures, funcSignature_letters hp, hsig, hsig', ← letters_beq hp (.named h)]
    rfl
  | frameArray n =>
    show unifySignatures _ _ _ _ = _
    rw [unifySignatures, funcSignature_letters hp, hsig, hsig', ← letters_beq hp (.frameArray n)]
    rfl

theorem reads_pairs (binders : List String) (fuel : ℕ) {ps ts : List TypeName} (hts : ∀ t ∈ ts, t.Wellformed) (hcs : ∀ t ∈ ts, t.Concrete P) (hsubs : subs.Wellformed)
    (ih : ∀ p ∈ ps, ∀ t : TypeName, t.Wellformed → t.Concrete P → ∀ subs : Subst, subs.Wellformed → SpelledMatch P binders fuel p t subs) :
    unifyPairs (unifyLoop P (binders.map String.toList) fuel) ((ps.map TypeName.letters).zip (ts.map TypeName.letters))
        (textSubst subs) = (.ok (unifyTypeNames binders ps ts subs).1, textSubst (unifyTypeNames binders ps ts subs).2) ∧
      (unifyTypeNames binders ps ts subs).2.Wellformed := by
  induction ps generalizing ts subs with
  | nil =>
    have heq : unifyTypeNames binders [] ts subs = (true, subs) := by rw [unifyTypeNames]; simp
    rw [heq]
    exact ⟨rfl, hsubs⟩
  | cons p ps ihps =>
    cases ts with
    | nil =>
      have heq : unifyTypeNames binders (p :: ps) [] subs = (true, subs) := by rw [unifyTypeNames]; simp
      rw [heq]
      exact ⟨rfl, hsubs⟩
    | cons t ts =>
      obtain ⟨hres, hwf⟩ := ih p List.mem_cons_self t (hts t List.mem_cons_self) (hcs t List.mem_cons_self) subs hsubs
      rw [List.map_cons, List.map_cons, List.zip_cons_cons, unifyPairs, hres, unifyTypeNames]
      cases hb : unifyTypeName binders p t subs with
      | mk b subs' =>
        rw [hb] at hwf
        cases b with
        | false => exact ⟨rfl, hwf⟩
        | true =>
          exact ihps (fun u hu => hts u (List.mem_cons_of_mem _ hu)) (fun u hu => hcs u (List.mem_cons_of_mem _ hu)) hwf
            fun q hq => ih q (List.mem_cons_of_mem _ hq)

/-- An application against a type of another shape. -/
theorem reads_app_other {base : String} {args : List TypeName} (hp : (TypeName.app base args).Wellformed)
    (hpc : P.isidentifier base.toList = true) (ht : t.Wellformed) (hc : t.Concrete P) (hother : t.appParts = none)
    (hmem : (TypeName.app base args).letters ∉ binders.map String.toList)
    (heq : unifyTypeName binders (.app base args) t subs = (false, subs)) (hsubs : subs.Wellformed) :
    SpelledMatch P binders (fuel + 1) (.app base args) t subs := by
  refine ⟨?_, by rw [heq]; exact hsubs⟩
  rw [heq, unifyLoop, if_neg hmem, application_letters hp hpc, genericApplication_letters ht hc, hother]

/-- A function type against a type of another shape. -/
theorem reads_fn_other {params : List TypeName} {ret : TypeName} (hp : (TypeName.fn params ret).Wellformed) (ht : t.Wellformed)
    (hc : t.Concrete P) (hother : t.fnParts = none) (hmem : (TypeName.fn params ret).letters ∉ binders.map String.toList)
    (heq : unifyTypeName binders (.fn params ret) t subs = (false, subs)) (hsubs : subs.Wellformed) :
    SpelledMatch P binders (fuel + 1) (.fn params ret) t subs := by
  refine ⟨?_, by rw [heq]; exact hsubs⟩
  rw [heq, unifyLoop, if_neg hmem, application_fn, genericApplication_letters ht hc]
  cases t.appParts with
  | some parts => rfl
  | none =>
    show unifySignatures _ _ _ _ = _
    rw [unifySignatures, funcSignature_letters hp, funcSignature_letters ht, hother]
    rfl

/-- The matches of the parts of a spelling are matches of its names' parts, and so is the
match of the whole. -/
theorem unify_reads (hb : ∀ n ∈ binders, NameText n.toList) (hp : p.Wellformed) (ht : t.Wellformed) (hc : t.Concrete P)
    (hsubs : subs.Wellformed) (hfuel : p.letters.length < fuel) : SpelledMatch P binders fuel p t subs := by
  induction hp generalizing t subs fuel with
  | @named n hn =>
    obtain ⟨fuel, rfl⟩ := Nat.exists_eq_succ_of_ne_zero (Nat.ne_of_gt (Nat.zero_lt_of_lt hfuel))
    by_cases hmem : n ∈ binders
    · have htext : (TypeName.named n).letters ∈ binders.map String.toList := List.mem_map_of_mem hmem
      have hlookup := lookup_textSubst subs n
      cases hl : subs.lookup n with
      | none =>
        rw [hl] at hlookup
        refine ⟨?_, ?_⟩ <;> rw [unify_unbound hmem t hl]
        · rw [unifyLoop, if_pos htext, TypeName.letters_named, hlookup]
          simp [textSubst]
        · intro m v hv
          rw [lookup_append_new hl] at hv
          by_cases hm : m = n
          · rw [if_pos hm] at hv
            cases hv
            exact ht
          · rw [if_neg hm] at hv
            exact hsubs m v hv
      | some bound =>
        rw [hl] at hlookup
        refine ⟨?_, ?_⟩ <;> rw [unify_bound hmem t hl]
        · rw [unifyLoop, if_pos htext, TypeName.letters_named, hlookup, ← letters_beq (hsubs n bound hl) ht]
          rfl
        · exact hsubs
    · refine .const (.named hn) ht hc ?_ (genericApplication_plain hn.plain) rfl (unify_const hmem t subs) hsubs
      intro h
      obtain ⟨m, hm, heq⟩ := List.mem_map.mp h
      have hmn : m = n := String.toList_inj.mp heq
      exact hmem (hmn ▸ hm)
  | frameArray length =>
    obtain ⟨fuel, rfl⟩ := Nat.exists_eq_succ_of_ne_zero (Nat.ne_of_gt (Nat.zero_lt_of_lt hfuel))
    exact .const (.frameArray length) ht hc (letters_notMem hb frameArray_not_name)
      (genericApplication_plain (frameArray_plain length)) rfl (by rw [unifyTypeName]) hsubs
  | @app base args hbase hne hargs ih =>
    obtain ⟨fuel, rfl⟩ := Nat.exists_eq_succ_of_ne_zero (Nat.ne_of_gt (Nat.zero_lt_of_lt hfuel))
    have hp := TypeName.Wellformed.app hbase hne hargs
    have hmem := letters_notMem hb (app_not_name base args)
    cases hid : P.isidentifier base.toList with
    | false =>
      have happ : genericApplication P (TypeName.app base args).letters = .ok none := by
        rw [TypeName.letters_app]
        exact genericApplication_unnamed hbase hid _
      refine .const hp ht hc hmem happ rfl ?_ hsubs
      cases hc with
      | @app base' args' hid' _ =>
        have hdiff : base ≠ base' := by
          rintro rfl
          rw [hid] at hid'
          cases hid'
        have hne : (TypeName.app base args == .app base' args') = false := by simp [hdiff]
        rw [unifyTypeName, if_pos (.inl hdiff), hne]
      | named => rw [unifyTypeName]; all_goals simp
      | frameArray => rw [unifyTypeName]; all_goals simp
      | fn => rw [unifyTypeName]; all_goals simp
    | true =>
      cases ht with
      | @app base' args' hbase' hne' hargs' =>
        have ht := TypeName.Wellformed.app hbase' hne' hargs'
        have hshape : (base.toList ≠ base'.toList ∨ (args.map TypeName.letters).length ≠ (args'.map TypeName.letters).length) ↔
            (base ≠ base' ∨ args.length ≠ args'.length) := by
          rw [ne_eq, String.toList_inj, List.length_map, List.length_map]
        have hrun : unifyLoop P (binders.map String.toList) (fuel + 1) (TypeName.app base args).letters
            (TypeName.app base' args').letters (textSubst subs) =
            if base ≠ base' ∨ args.length ≠ args'.length then (.ok false, textSubst subs)
            else unifyPairs (unifyLoop P (binders.map String.toList) fuel)
              ((args.map TypeName.letters).zip (args'.map TypeName.letters)) (textSubst subs) := by
          rw [unifyLoop, if_neg hmem, application_letters hp hid, genericApplication_letters ht hc]
          exact if_congr hshape rfl rfl
        by_cases hdiff : base ≠ base' ∨ args.length ≠ args'.length
        · have heq : unifyTypeName binders (.app base args) (.app base' args') subs = (false, subs) := by
            rw [unifyTypeName, if_pos hdiff]
          exact ⟨by rw [hrun, if_pos hdiff, heq], by rw [heq]; exact hsubs⟩
        · have heq : unifyTypeName binders (.app base args) (.app base' args') subs = unifyTypeNames binders args args' subs := by
            rw [unifyTypeName, if_neg hdiff]
          cases hc with
          | app _ hcs =>
            obtain ⟨hres, hwf⟩ := reads_pairs binders fuel hargs' hcs hsubs fun q hq u hu huc subs' hs =>
              ih q hq hu huc hs (by have := length_app base hq; omega)
            exact ⟨by rw [hrun, if_neg hdiff, heq]; exact hres, by rw [heq]; exact hwf⟩
      | named h =>
        exact reads_app_other hp hid (.named h) hc rfl hmem (by rw [unifyTypeName]; all_goals simp) hsubs
      | frameArray n =>
        exact reads_app_other hp hid (.frameArray n) hc rfl hmem (by rw [unifyTypeName]; all_goals simp) hsubs
      | fn hparams hret =>
        exact reads_app_other hp hid (.fn hparams hret) hc rfl hmem (by rw [unifyTypeName]; all_goals simp) hsubs
  | @fn params ret hparams hret ih ihr =>
    obtain ⟨fuel, rfl⟩ := Nat.exists_eq_succ_of_ne_zero (Nat.ne_of_gt (Nat.zero_lt_of_lt hfuel))
    have hp := TypeName.Wellformed.fn hparams hret
    have hmem := letters_notMem hb (fn_not_name params ret)
    cases ht with
    | @fn params' ret' hparams' hret' =>
      have ht := TypeName.Wellformed.fn hparams' hret'
      have hrun : unifyLoop P (binders.map String.toList) (fuel + 1) (TypeName.fn params ret).letters
          (TypeName.fn params' ret').letters (textSubst subs) =
          unifySignatures (unifyLoop P (binders.map String.toList) fuel) (TypeName.fn params ret).letters
            (TypeName.fn params' ret').letters (textSubst subs) := by
        rw [unifyLoop, if_neg hmem, application_fn, genericApplication_letters ht hc]
        rfl
      rw [unifySignatures, funcSignature_letters hp, funcSignature_letters ht] at hrun
      by_cases hlen : params.length = params'.length
      · cases hc with
        | fn hcs hcr =>
          obtain ⟨hres, hwf⟩ := reads_pairs binders fuel hparams' hcs hsubs fun q hq u hu huc subs' hs =>
            ih q hq hu huc hs (by have := length_param ret hq; omega)
          have htext : ¬ (params.map TypeName.letters).length ≠ (params'.map TypeName.letters).length := by
            rw [List.length_map, List.length_map]
            exact not_not.mpr hlen
          rw [TypeName.fnParts, TypeName.fnParts] at hrun
          dsimp only at hrun
          rw [if_neg htext, hres] at hrun
          have heq : unifyTypeName binders (.fn params ret) (.fn params' ret') subs =
              if (unifyTypeNames binders params params' subs).1
              then unifyTypeName binders ret ret' (unifyTypeNames binders params params' subs).2
              else (false, (unifyTypeNames binders params params' subs).2) := by
            rw [unifyTypeName, if_neg (not_not.mpr hlen)]
            cases unifyTypeNames binders params params' subs with
            | mk b subs' => cases b <;> rfl
          cases hall : unifyTypeNames binders params params' subs with
          | mk b subs' =>
            rw [hall] at hrun hwf heq
            cases b with
            | false => exact ⟨by rw [hrun, heq]; rfl, by rw [heq]; exact hwf⟩
            | true =>
              obtain ⟨hres', hwf'⟩ := @ihr ret' fuel subs' hret' hcr hwf (by have := length_ret params ret; omega)
              exact ⟨by rw [hrun, heq]; exact hres', by rw [heq]; exact hwf'⟩
      · have heq : unifyTypeName binders (.fn params ret) (.fn params' ret') subs = (false, subs) := by
          rw [unifyTypeName, if_pos hlen]
        refine ⟨?_, by rw [heq]; exact hsubs⟩
        rw [hrun, heq, TypeName.fnParts, TypeName.fnParts]
        exact if_pos (by simpa using hlen)
    | named h =>
      exact reads_fn_other hp (.named h) hc rfl hmem (by rw [unifyTypeName]; all_goals simp) hsubs
    | frameArray n =>
      exact reads_fn_other hp (.frameArray n) hc rfl hmem (by rw [unifyTypeName]; all_goals simp) hsubs
    | app hbase hne hargs =>
      exact reads_fn_other hp (.app hbase hne hargs) hc rfl hmem (by rw [unifyTypeName]; all_goals simp) hsubs

/-- A match that keeps every binding it is given. -/
def KeepsBindings (unify : List Char → List Char → TextSubst → Except TypeNameError Bool × TextSubst) : Prop :=
  ∀ pattern actual (subs : TextSubst) x v, subs.lookup x = some v → (unify pattern actual subs).2.lookup x = some v

variable {unify : List Char → List Char → TextSubst → Except TypeNameError Bool × TextSubst} {subs : TextSubst} {x v : List Char}

theorem KeepsBindings.pairs (h : KeepsBindings unify) (pairs : List (List Char × List Char)) (hx : subs.lookup x = some v) :
    (unifyPairs unify pairs subs).2.lookup x = some v := by
  induction pairs generalizing subs with
  | nil => exact hx
  | cons pair pairs ih =>
    obtain ⟨pattern, actual⟩ := pair
    have hstep := h pattern actual subs x v hx
    rw [unifyPairs]
    split
    · rename_i subs' heq
      rw [heq] at hstep
      exact ih hstep
    · exact hstep

theorem KeepsBindings.signatures (h : KeepsBindings unify) : KeepsBindings (unifySignatures unify) := by
  intro pattern actual subs x v hx
  unfold unifySignatures
  split
  · exact hx
  · exact hx
  · exact hx
  · rename_i ps r as s _ _
    split
    · exact hx
    · have hpairs := h.pairs (ps.zip as) hx
      split
      · rename_i subs' heq
        rw [heq] at hpairs
        exact h r s subs' x v hpairs
      · exact hpairs
  · exact hx

/-- No match changes a binding, whatever it is of and however it ends. -/
theorem unifyLoop_keeps (P : Identifiers) (params : List (List Char)) (fuel : ℕ) : KeepsBindings (unifyLoop P params fuel) := by
  induction fuel with
  | zero => exact fun _ _ _ _ _ hx => hx
  | succ fuel ih =>
    intro pattern actual subs x v hx
    unfold unifyLoop
    split
    · split
      · show (subs ++ _).lookup x = _
        rw [List.lookup_append, hx]
        rfl
      · exact hx
    · split
      · exact hx
      · exact hx
      · exact ih.signatures pattern actual subs x v hx
      · rename_i base ps base' as _ _
        split
        · exact hx
        · exact ih.pairs (ps.zip as) hx
      · exact hx

end Spellings

section Exactness

variable {P : Identifiers} {binders : List String} {p t : TypeName}

theorem Subst.Over.keys {subs : Subst} (h : subs.Over binders) : ∀ e ∈ subs, e.1 ∈ binders := by
  intro e he
  by_contra hn
  have hnone := List.lookup_eq_none_iff.mp (h e.1 hn) e he
  simp at hnone

theorem concrete_of_substitute {σ : Subst} (h : (substituteTypeName σ p).Concrete P) (hp : p.Wellformed) : p.Concrete P := by
  induction hp with
  | named => exact .named _
  | frameArray => exact .frameArray _
  | app _ _ _ ih =>
    rw [substituteTypeName, substituteTypeNames_eq_map] at h
    cases h with
    | app hid hargs => exact .app hid fun u hu => ih u hu (hargs _ (List.mem_map_of_mem hu))
  | fn _ _ ih ihr =>
    rw [substituteTypeName, substituteTypeNames_eq_map] at h
    cases h with
    | fn hparams hret => exact .fn (fun u hu => ih u hu (hparams _ (List.mem_map_of_mem hu))) (ihr hret)

/-- Inference of type arguments on spellings: a match succeeds exactly if a substitution of the
parameters turns the pattern into the type, and then finds that substitution. -/
theorem unifyTypeText_exact (P : Identifiers) {binders : List String} {p t : TypeName} (hb : ∀ n ∈ binders, NameText n.toList)
    (hp : p.Wellformed) (ht : t.Wellformed) (hc : t.Concrete P) : ∃ ok subs,
    unifyTypeText P (binders.map String.toList) p.letters t.letters [] = (.ok ok, textSubst subs) ∧
    (ok = true ↔ ∃ σ : Subst, σ.Over binders ∧ substituteTypeName σ p = t) ∧
    (ok = true → substituteTypeText P p.letters (textSubst subs) = .ok t.letters ∧
      ∀ σ : Subst, σ.Over binders → substituteTypeName σ p = t →
        ∀ n ∈ binders, p.Mentions n → subs.lookup n = some (σ.value n)) ∧
    ∀ pattern actual x v (before : TextSubst), before.lookup x = some v →
      (unifyTypeText P (binders.map String.toList) pattern actual before).2.lookup x = some v := by
  have hempty : Subst.Wellformed [] := fun n v h => by cases h
  have hover : Subst.Over [] binders := fun _ _ => rfl
  have hagrees (σ : Subst) : Subst.Agrees [] σ := fun n v h => by cases h
  obtain ⟨hres, -⟩ := unify_reads (P := P) hb hp ht hc hempty (Nat.lt_succ_self _)
  obtain ⟨-, hconfined, hsound, hcomplete⟩ := @unify_matches binders p t []
  refine ⟨_, _, hres, ⟨fun hok => ?_, ?_⟩, fun hok => ⟨?_, fun σ hσ hsub n hn hmention => ?_⟩, ?_⟩
  · exact ⟨_, hconfined hover, (hsound hok).2 _ (fun _ _ h => h) (hconfined hover)⟩
  · rintro ⟨σ, hσ, hsub⟩
    exact (hcomplete σ hσ hsub (hagrees σ)).1
  · have hsub := (hsound hok).2 _ (fun _ _ h => h) (hconfined hover)
    have hpc := concrete_of_substitute (P := P) (hsub.symm ▸ hc) hp
    have hkeys : ∀ e ∈ (unifyTypeName binders p t []).2, NameText e.1.toList := fun e he => hb _ ((hconfined hover).keys e he)
    rw [substituteTypeText, substituteLoop_letters hkeys hp hpc _ (Nat.lt_succ_self _), hsub]
  · obtain ⟨v, hv⟩ := Option.isSome_iff_exists.mp ((hsound hok).1 n hn hmention)
    rw [hv, (hcomplete σ hσ hsub (hagrees σ)).2 n v hv]
  · exact fun pattern actual x v before hx => unifyLoop_keeps P _ _ pattern actual before x v hx

/-- `str.isidentifier()` of ASCII text. -/
def asciiIdentifiers : Identifiers where
  isidentifier s := s ≠ [] ∧ s.all (fun c => c.isAlphanum || c == '_') ∧ s.head?.any (fun c => !c.isDigit)
  letters s hne h := by
    obtain ⟨c, cs, rfl⟩ := List.exists_cons_of_ne_nil hne
    have hdigit : c.isDigit = false := by
      have := h c List.mem_cons_self
      simp [Char.isAlpha, Char.isUpper, Char.isLower, Char.isDigit, UInt32.le_iff_toNat_le] at this ⊢
      omega
    simp only [Bool.decide_and, Bool.and_eq_true, decide_eq_true_eq, List.all_eq_true]
    exact ⟨hne, fun d hd => by simp [Char.isAlphanum, h d hd], by simp [hdigit]⟩
  no_paren s h hmem := by
    simp only [Bool.decide_and, Bool.and_eq_true, decide_eq_true_eq, List.all_eq_true] at h
    exact absurd (h.2.1 _ hmem) (by decide)

/-- `Map<T,fn(T):T>` against `Map<int,fn(int):int>`. -/
theorem map_unifies : ∃ subs : Subst,
    unifyTypeText asciiIdentifiers [['T']] (TypeName.app "Map" [.named "T", .fn [.named "T"] (.named "T")]).letters
      (TypeName.app "Map" [.named "int", .fn [.named "int"] (.named "int")]).letters [] = (.ok true, textSubst subs) ∧
    subs.lookup "T" = some (.named "int") := by
  have hname (s : String) (h : s ∈ ["T", "int", "Map"]) : NameText s.toList := by
    simp only [List.mem_cons, List.not_mem_nil, or_false] at h
    rcases h with rfl | rfl | rfl <;> exact ⟨by decide, by simp [Plain, isSpace], by decide⟩
  have hw (s : String) (h : s ∈ ["T", "int"]) :
      (TypeName.app "Map" [.named s, .fn [.named s] (.named s)]).Wellformed := by
    have hs : (TypeName.named s).Wellformed := .named (hname s (by simp at h ⊢; tauto))
    refine .app (hname "Map" (by simp)) (by simp) (List.forall_mem_cons.mpr ⟨hs, List.forall_mem_singleton.mpr ?_⟩)
    exact .fn (List.forall_mem_singleton.mpr hs) hs
  have hc : (TypeName.app "Map" [.named "int", .fn [.named "int"] (.named "int")]).Concrete asciiIdentifiers := by
    refine .app (by decide) (List.forall_mem_cons.mpr ⟨.named _, List.forall_mem_singleton.mpr ?_⟩)
    exact .fn (List.forall_mem_singleton.mpr (.named _)) (.named _)
  obtain ⟨ok, subs, hres, hiff, honly, -⟩ := @unifyTypeText_exact asciiIdentifiers ["T"] _ _
    (List.forall_mem_singleton.mpr (hname "T" (by simp))) (hw "T" (by simp)) (hw "int" (by simp)) hc
  have hover : Subst.Over [("T", .named "int")] ["T"] := by
    intro n hn
    have hne : (n == "T") = false := by simpa using hn
    simp [List.lookup, hne]
  have hsub : substituteTypeName [("T", .named "int")] (.app "Map" [.named "T", .fn [.named "T"] (.named "T")]) =
      .app "Map" [.named "int", .fn [.named "int"] (.named "int")] := rfl
  obtain rfl := hiff.mpr ⟨_, hover, hsub⟩
  exact ⟨subs, hres, (honly rfl).2 _ hover hsub "T" (by simp) (.app (by simp) .named)⟩

end Exactness

end QuinLang
