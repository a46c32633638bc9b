import Combinatory.Proofs.Guarantee
import Combinatory.Proofs.Settled.Twins

/-!
# What computations of the engine achieve

A guarantee speaks of the results that there are; here a computation must have one. It may rely on
a sane store, in which only idle applications are remembered that have been made before, and leaves
one behind.
-/

namespace Combinatory

/-- Whether only idle applications are remembered, none of which is still to be made. -/
def Store.Sane (s : Store) : Prop :=
  ∃ H : Heap, (∀ n, s.nextNode ≤ n → H n = none) ∧ H.Sound s.settled

namespace Store.Sane

variable {s s' : Store}

/-- A store is sane in which nothing is remembered. -/
theorem of_settled_eq_empty (h : s.settled = ∅) : s.Sane :=
  ⟨fun _ => none, fun _ _ => rfl, fun _ hn => absurd (h ▸ hn) Std.HashSet.not_mem_empty⟩

/-- Giving out identities keeps a store sane. -/
theorem of_settled_eq (h : s.Sane) (hn : s.nextNode ≤ s'.nextNode)
    (ht : s'.settled = s.settled) : s'.Sane := by
  obtain ⟨H, hH, hs⟩ := h
  exact ⟨H, fun n hle => hH n (Nat.le_trans hn hle), ht ▸ hs⟩

/-- What has not been made yet is not in the table. -/
theorem not_mem_settled (h : s.Sane) {n : Nat} (hn : s.nextNode ≤ n) : n ∉ s.settled := by
  obtain ⟨H, hH, sound⟩ := h
  intro mem
  obtain ⟨g, as, hg, -⟩ := sound n mem
  rw [hH n hn] at hg
  cases hg

/-- Both twins are sane. -/
theorem left (p : Twins) : p.left.Sane := ⟨p.heap, p.bounded, p.left_sound⟩

theorem right (p : Twins) : p.right.Sane := by
  refine ⟨p.heap, ?_, p.right_sound⟩
  rw [p.nextNode]
  exact p.bounded

/-- A sane store has itself for a twin. -/
theorem exists_twins (h : s.Sane) : ∃ p : Twins, p.left = s ∧ p.right = s := by
  obtain ⟨H, hH, hs⟩ := h
  exact ⟨⟨H, s, s, rfl, rfl, hH, hs, hs⟩, rfl, rfl⟩

end Store.Sane

namespace Engine

variable {α β : Type}

/-- Over a sane store a computation has a result that meets a condition, and leaves a sane store. -/
def Yields (x : Engine α) (s : Store) (Q : α → Store → Prop) : Prop :=
  s.Sane → ∃ a s', x s = .ok a s' ∧ s'.Sane ∧ s ≤ s' ∧ Q a s'

namespace Yields

variable {x : Engine α} {s : Store} {Q : α → Store → Prop}

/-- A weaker condition is met too. -/
theorem imp {Q' : α → Store → Prop} (hx : Yields x s Q)
    (h : ∀ a s', s ≤ s' → Q a s' → Q' a s') : Yields x s Q' := by
  intro hs
  obtain ⟨a, s', hr, hs', hle, hq⟩ := hx hs
  exact ⟨a, s', hr, hs', hle, h a s' hle hq⟩

/-- What is yielded is the result. -/
theorem of_ok (hx : Yields x s Q) (hs : s.Sane) {a : α} {s' : Store} (h : x s = .ok a s') :
    s'.Sane ∧ s ≤ s' ∧ Q a s' := by
  obtain ⟨b, s₁, h₁, hs₁, hle, hq⟩ := hx hs
  rw [h] at h₁
  cases h₁
  exact ⟨hs₁, hle, hq⟩

/-- What is yielded twice is the same result. -/
protected theorem and {P : α → Store → Prop} (hx : Yields x s Q) (hp : Yields x s P) :
    Yields x s fun a s' => Q a s' ∧ P a s' := by
  intro hs
  obtain ⟨a, s', hr, hs', hle, hq⟩ := hx hs
  exact ⟨a, s', hr, hs', hle, hq, (hp.of_ok hs hr).2.2⟩

/-- A constant is its result. -/
protected theorem pure {a : α} (h : Q a s) : Yields (Pure.pure a) s Q :=
  fun hs => ⟨a, s, rfl, hs, s.le_refl, h⟩

/-- A sequence yields what its second part does after the first. -/
protected theorem bind {f : α → Engine β} {P : α → Store → Prop} {Q : β → Store → Prop}
    (hx : Yields x s P) (hf : ∀ a s₁, s ≤ s₁ → P a s₁ → Yields (f a) s₁ Q) :
    Yields (x >>= f) s Q := by
  intro hs
  obtain ⟨a, s₁, h₁, hs₁, hle, hp⟩ := hx hs
  obtain ⟨b, s₂, h₂, hs₂, hle', hq⟩ := hf a s₁ hle hp hs₁
  exact ⟨b, s₂, bind_ok_iff.mpr ⟨a, s₁, h₁, h₂⟩, hs₂, Store.le_trans hle hle', hq⟩

end Yields

/-- A computation has a result that meets a condition, whatever the store. It gives out identities
and remembers nothing. -/
def Gives (x : Engine α) (s : Store) (Q : α → Store → Prop) : Prop :=
  ∃ a s', x s = .ok a s' ∧ s ≤ s' ∧ s.nextNode ≤ s'.nextNode ∧ s'.settled = s.settled ∧ Q a s'

namespace Gives

variable {x : Engine α} {s : Store} {Q : α → Store → Prop}

/-- What is given is yielded. -/
theorem yields (hx : Gives x s Q) : Yields x s Q := by
  intro hs
  obtain ⟨a, s', hr, hle, hn, ht, hq⟩ := hx
  exact ⟨a, s', hr, hs.of_settled_eq hn ht, hle, hq⟩

/-- A weaker condition is met too. -/
theorem imp {Q' : α → Store → Prop} (hx : Gives x s Q)
    (h : ∀ a s', s ≤ s' → Q a s' → Q' a s') : Gives x s Q' := by
  obtain ⟨a, s', hr, hle, hn, ht, hq⟩ := hx
  exact ⟨a, s', hr, hle, hn, ht, h a s' hle hq⟩

/-- A constant is its result. -/
protected theorem pure {a : α} (h : Q a s) : Gives (Pure.pure a) s Q :=
  ⟨a, s, rfl, s.le_refl, Nat.le_refl _, rfl, h⟩

/-- A sequence gives what its second part does after the first. -/
protected theorem bind {f : α → Engine β} {P : α → Store → Prop} {Q : β → Store → Prop}
    (hx : Gives x s P) (hf : ∀ a s₁, s ≤ s₁ → P a s₁ → Gives (f a) s₁ Q) :
    Gives (x >>= f) s Q := by
  obtain ⟨a, s₁, h₁, hle, hn, ht, hp⟩ := hx
  obtain ⟨b, s₂, h₂, hle', hn', ht', hq⟩ := hf a s₁ hle hp
  exact ⟨b, s₂, bind_ok_iff.mpr ⟨a, s₁, h₁, h₂⟩, Store.le_trans hle hle', Nat.le_trans hn hn',
    ht'.trans ht, hq⟩

/-- What is given meets what is guaranteed. -/
theorem ensured {P : α → Store → Prop} (hx : Gives x s Q) (hp : Ensures x s P) :
    Gives x s fun a s' => Q a s' ∧ P a s' := by
  obtain ⟨a, s', hr, hle, hn, ht, hq⟩ := hx
  exact ⟨a, s', hr, hle, hn, ht, hq, (hp a s' hr).2⟩

end Gives

/-- An application is made as it stands. -/
theorem gives_node (h : Term) (as : List Term) (s : Store) :
    Gives (node h as) s fun t _ => ∃ n, t = .app n h as :=
  ⟨_, _, rfl, Int.le_refl _, Nat.le_succ _, rfl, _, rfl⟩

/-- A fresh variable was not minted before. -/
theorem gives_freshVariable (name : String) (s : Store) :
    Gives (freshVariable name) s fun v s' => ¬ s.Minted v ∧ s'.Minted v :=
  ⟨_, _, rfl, Int.le_of_lt (Int.lt_succ _), Nat.le_refl _, rfl, Int.lt_irrefl _, Int.lt_succ _⟩

/-- An application is made as it stands. -/
theorem yields_node (h : Term) (as : List Term) (s : Store) :
    Yields (node h as) s fun t _ => ∃ n, t = .app n h as :=
  fun hs => ⟨_, _, rfl, hs.of_settled_eq (Nat.le_succ _) rfl, Int.le_refl _, _, rfl⟩

/-- A fresh variable has the next identity. -/
theorem yields_freshVariable (name : String) (s : Store) :
    Yields (freshVariable name) s fun v s' =>
      v = ⟨name, s.nextVariable⟩ ∧ s'.nextVariable = s.nextVariable + 1 :=
  fun hs => ⟨_, _, rfl, hs.of_settled_eq (Nat.le_refl _) rfl, Int.le_of_lt (Int.lt_succ _),
    rfl, rfl⟩

end Engine

end Combinatory
