import Mathlib

/-! Marking with a worklist. Pending addresses resolve to nodes or to nothing,
and visiting a node queues the addresses it holds. The invariant that carries
every such loop is that a marked node's addresses are either dealt with or
still pending; when nothing is pending the marked nodes are exactly the
reachable ones. -/

namespace Worklist

variable {A B : Type*} (resolve : A → Option B) (succ : B → List A)

/-- Nodes reachable from the nodes that `roots` resolve to. -/
inductive Reach (roots : A → Prop) : B → Prop
  | root {a : A} {b : B} : roots a → resolve a = some b → Reach roots b
  | step {b c : B} {a : A} : Reach roots b → a ∈ succ b → resolve a = some c → Reach roots c

variable {resolve succ}

theorem Reach.mono {roots roots' : A → Prop} (h : ∀ a, roots a → roots' a) {b : B}
    (hr : Reach resolve succ roots b) : Reach resolve succ roots' b := by
  induction hr with
  | root hroot hres => exact .root (h _ hroot) hres
  | step _ hmem hres ih => exact .step ih hmem hres

variable (resolve succ) in
/-- Every address held by a marked node resolves to a marked node or is pending. -/
def Frontier (marked : List B) (pending : List A) : Prop :=
  ∀ b ∈ marked, ∀ a ∈ succ b, ∀ c, resolve a = some c → c ∈ marked ∨ a ∈ pending

theorem Frontier.nil : Frontier resolve succ [] [] := by
  intro b hb
  simp at hb

theorem Frontier.push {marked : List B} {pending : List A} (h : Frontier resolve succ marked pending)
    (a : A) : Frontier resolve succ marked (a :: pending) :=
  fun b hb x hx c hc => (h b hb x hx c hc).imp id (List.mem_cons_of_mem _)

/-- A pending address that resolves to nothing, or to a marked node, can be dropped. -/
theorem Frontier.drop {marked : List B} {pending : List A} {a : A}
    (h : Frontier resolve succ marked (a :: pending)) (hd : ∀ c, resolve a = some c → c ∈ marked) :
    Frontier resolve succ marked pending := by
  intro b hb x hx c hc
  rcases h b hb x hx c hc with hm | hp
  · exact Or.inl hm
  · rcases List.mem_cons.mp hp with rfl | hp
    · exact Or.inl (hd c hc)
    · exact Or.inr hp

/-- Visiting a node marks it and queues what it holds. -/
theorem Frontier.visit {marked : List B} {pending queued : List A} {a : A} {n : B}
    (h : Frontier resolve succ marked (a :: pending)) (hn : resolve a = some n)
    (hq : ∀ x ∈ succ n, x ∈ queued) :
    Frontier resolve succ (n :: marked) (queued ++ pending) := by
  intro b hb x hx c hc
  rcases List.mem_cons.mp hb with rfl | hb
  · exact Or.inr (List.mem_append_left _ (hq x hx))
  rcases h b hb x hx c hc with hm | hp
  · exact Or.inl (List.mem_cons_of_mem _ hm)
  rcases List.mem_cons.mp hp with rfl | hp
  · rw [hn] at hc
    exact Or.inl (by simp [Option.some.inj hc])
  · exact Or.inr (List.mem_append_right _ hp)

/-- With nothing pending, everything reachable is marked. -/
theorem Frontier.complete {marked : List B} {roots : A → Prop} (h : Frontier resolve succ marked [])
    (hroots : ∀ a, roots a → ∀ c, resolve a = some c → c ∈ marked) {b : B}
    (hr : Reach resolve succ roots b) : b ∈ marked := by
  induction hr with
  | root hroot hres => exact hroots _ hroot _ hres
  | step _ hmem hres ih =>
    rcases h _ ih _ hmem _ hres with hm | hp
    · exact hm
    · simp at hp

end Worklist
