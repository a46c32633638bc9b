import Combinatory.Engine

/-!
# What computations of the engine guarantee

A guarantee says what holds of every result of a computation, and that no identity of a variable is
given out again, however the computation ends. What has been remembered of normal forms does not
matter to it. A failing computation has no result, so of its result it guarantees anything.
-/

namespace Combinatory

namespace Store

/-- A store comes after another if it has minted as many variables, and perhaps more. -/
instance : LE Store := ⟨fun s s' => s.nextVariable ≤ s'.nextVariable⟩

theorem le_refl (s : Store) : s ≤ s := Int.le_refl _

theorem le_trans {s₁ s₂ s₃ : Store} (h : s₁ ≤ s₂) (h' : s₂ ≤ s₃) : s₁ ≤ s₃ :=
  Int.le_trans h h'

/-- Whether a variable may have been minted. -/
def Minted (s : Store) (v : Variable) : Prop := v.ident < s.nextVariable

/-- What has been minted stays minted. -/
theorem Minted.mono {s s' : Store} (h : s ≤ s') {v : Variable} (hv : s.Minted v) : s'.Minted v :=
  Int.lt_of_lt_of_le hv h

end Store

namespace Engine

variable {α β : Type}

/-- After a result the second part of a sequence is computed. -/
theorem bind_of_ok {x : Engine α} {f : α → Engine β} {s s₁ : Store} {a : α}
    (h : x s = .ok a s₁) : (x >>= f) s = f a s₁ := by
  change EStateM.bind x f s = _
  rw [EStateM.bind, h]

/-- After a failure nothing is. -/
theorem bind_of_error {x : Engine α} {f : α → Engine β} {s s₁ : Store}
    {e : Failure} (h : x s = .error e s₁) : (x >>= f) s = .error e s₁ := by
  change EStateM.bind x f s = _
  rw [EStateM.bind, h]

/-- Every result of a computation comes with a later store and meets a condition, and a failure
leaves a later store. -/
structure Ensures (x : Engine α) (s : Store) (Q : α → Store → Prop) : Prop where
  ok : ∀ a s', x s = .ok a s' → s ≤ s' ∧ Q a s'
  error : ∀ e s', x s = .error e s' → s ≤ s'

/-- A guarantee is used on results. -/
instance {x : Engine α} {s : Store} {Q : α → Store → Prop} :
    CoeFun (Ensures x s Q) fun _ => ∀ a s', x s = .ok a s' → s ≤ s' ∧ Q a s' :=
  ⟨Ensures.ok⟩

/-- A weaker condition is guaranteed too. -/
theorem Ensures.imp {x : Engine α} {s : Store} {Q Q' : α → Store → Prop} (hx : Ensures x s Q)
    (h : ∀ a s', s ≤ s' → Q a s' → Q' a s') : Ensures x s Q' where
  ok a s' hr := by
    obtain ⟨hs, hq⟩ := hx a s' hr
    exact ⟨hs, h a s' hs hq⟩
  error := hx.error

/-- A result that is at hand meets what holds of it. -/
theorem Ensures.of_ok {x : Engine α} {s s' : Store} {a : α} {Q : α → Store → Prop}
    (hr : x s = .ok a s') (hs : s ≤ s') (h : Q a s') : Ensures x s Q where
  ok b s₁ hb := by
    rw [hr] at hb
    cases hb
    exact ⟨hs, h⟩
  error e s₁ he := by
    rw [hr] at he
    cases he

/-- A failure that is at hand takes nothing back. -/
theorem Ensures.of_error {x : Engine α} {s s' : Store} {e : Failure} {Q : α → Store → Prop}
    (hr : x s = .error e s') (hs : s ≤ s') : Ensures x s Q where
  ok a s₁ ha := by
    rw [hr] at ha
    cases ha
  error e₁ s₁ he := by
    rw [hr] at he
    cases he
    exact hs

/-- A computation that goes on as another one guarantees what the other one does. -/
theorem Ensures.of_eq {x y : Engine α} {s s' : Store} {Q : α → Store → Prop}
    (hy : Ensures y s' Q) (hr : x s = y s') (hs : s ≤ s') : Ensures x s Q where
  ok a s₁ ha := by
    obtain ⟨hs₁, hq⟩ := hy a s₁ (hr ▸ ha)
    exact ⟨Store.le_trans hs hs₁, hq⟩
  error e s₁ he := Store.le_trans hs (hy.error e s₁ (hr ▸ he))

/-- A result is the one of the computation. -/
theorem Ensures.traced {x : Engine α} {s : Store} {Q : α → Store → Prop} (hx : Ensures x s Q) :
    Ensures x s fun a s' => Q a s' ∧ x s = .ok a s' where
  ok a s' hr := ⟨(hx a s' hr).1, (hx a s' hr).2, hr⟩
  error := hx.error

/-- What is guaranteed twice is guaranteed together. -/
protected theorem Ensures.and {x : Engine α} {s : Store} {P Q : α → Store → Prop}
    (hx : Ensures x s P) (hq : Ensures x s Q) : Ensures x s fun a s' => P a s' ∧ Q a s' where
  ok a s' hr := ⟨(hx a s' hr).1, (hx a s' hr).2, (hq a s' hr).2⟩
  error := hx.error

/-- A constant meets what holds of it. -/
theorem Ensures.pure {a : α} {s : Store} {Q : α → Store → Prop} (h : Q a s) :
    Ensures (Pure.pure a) s Q :=
  .of_ok rfl s.le_refl h

/-- A failure has no result. -/
theorem Ensures.throw {e : Failure} {s : Store} {Q : α → Store → Prop} :
    Ensures (MonadExcept.throw e) s Q :=
  .of_error rfl s.le_refl

/-- A sequence guarantees what its second part does after anything that the first guarantees. -/
theorem Ensures.bind {x : Engine α} {f : α → Engine β} {s : Store} {P : α → Store → Prop}
    {Q : β → Store → Prop} (hx : Ensures x s P)
    (hf : ∀ a s₁, s ≤ s₁ → P a s₁ → Ensures (f a) s₁ Q) : Ensures (x >>= f) s Q := by
  cases h : x s with
  | ok a s₁ =>
    obtain ⟨hs, hp⟩ := hx a s₁ h
    exact (hf a s₁ hs hp).of_eq (bind_of_ok h) hs
  | error e s₁ => exact .of_error (bind_of_error h) (hx.error e s₁ h)

/-- A result may be put into another form. -/
theorem Ensures.map {x : Engine α} {f : α → β} {s : Store} {Q : β → Store → Prop}
    (hx : Ensures x s fun a s' => Q (f a) s') : Ensures (do return f (← x)) s Q :=
  hx.bind fun _ _ _ h => .pure h

/-- Nothing is done after a failure. -/
theorem Ensures.throw_bind {e : Failure} {f : α → Engine β} {s : Store} {Q : β → Store → Prop} :
    Ensures (MonadExcept.throw e >>= f) s Q :=
  Ensures.throw.bind (P := fun _ _ => False) fun _ _ _ h => h.elim

/-- A fresh variable was not minted before. -/
theorem ensures_freshVariable (name : String) (s : Store) :
    Ensures (freshVariable name) s fun v s' => ¬ s.Minted v ∧ s'.Minted v :=
  .of_ok rfl (Int.le_of_lt (Int.lt_succ _)) ⟨Int.lt_irrefl _, Int.lt_succ _⟩

/-- An application is made as it stands. -/
theorem ensures_node (head : Term) (args : List Term) (s : Store) :
    Ensures (node head args) s fun t _ => ∃ n, t = .app n head args :=
  .of_ok rfl (Int.le_refl _) ⟨_, rfl⟩

theorem ensures_freshNode (s : Store) : Ensures freshNode s fun _ _ => True :=
  .of_ok rfl (Int.le_refl _) trivial

theorem ensures_isSettled (n : Nat) (s : Store) : Ensures (isSettled n) s fun _ _ => True :=
  .of_ok rfl s.le_refl trivial

/-- What has not been remembered is looked into. -/
theorem isSettled_of_not_mem {n : Nat} {s : Store} (h : n ∉ s.settled) :
    isSettled n s = .ok false s := by
  have absent : s.settled.contains n = false := Bool.eq_false_iff.mpr h
  rw [isSettled, absent]

theorem ensures_settle (n : Nat) (s : Store) : Ensures (settle n) s fun _ _ => True :=
  .of_ok rfl (Int.le_refl _) trivial

theorem ensures_whole (a : Amount) (s : Store) : Ensures (whole a) s fun _ _ => True := by
  unfold whole
  split
  · exact .pure trivial
  · exact .throw

theorem ensures_bound (a : Amount) (s : Store) : Ensures (bound a) s fun _ _ => True := by
  unfold bound
  split
  · exact .pure trivial
  · exact .throw

theorem ensures_goal (a : Amount) (s : Store) : Ensures (goal a) s fun _ _ => True := by
  unfold goal
  split
  · exact .pure trivial
  · exact .throw

/-- What went well is the result. -/
theorem ensures_ofExcept (e : Except Failure α) (s : Store) :
    Ensures (MonadExcept.ofExcept e) s fun a _ => e = .ok a := by
  cases e with
  | ok a => exact .pure rfl
  | error e => exact .throw

end Engine

/-- What a step of a sequence keeps holds all along, so every item listed is shown from one that
meets what a step guarantees, if that is never lost. A failure ends the list and takes nothing
back. -/
theorem Listing.ensures_unfold {α β σ : Type} {next : σ → Engine (Option (α × σ))}
    {view : α → Except Failure β} {Inv : σ → Store → Prop} {P : α → Store → Prop}
    (hlater : ∀ x s s', s ≤ s' → P x s → P x s')
    (hnext : ∀ seed s, Inv seed s → Engine.Ensures (next seed) s fun o s' =>
      ∀ x seed', o = some (x, seed') → P x s' ∧ Inv seed' s')
    (limit : Nat) {seed : σ} {s : Store} (h : Inv seed s) :
    Engine.Ensures (unfold next view limit seed) s fun l s' =>
      ∀ y ∈ l.items, ∃ x, view x = .ok y ∧ P x s' := by
  induction limit generalizing seed s with
  | zero => exact .pure (List.forall_mem_nil _)
  | succ limit ih =>
    have step := hnext seed s h
    unfold unfold
    cases hx : next seed s with
    | error e s₁ =>
      exact .of_ok (a := ⟨[], some e⟩) (by rw [hx]) (step.error e s₁ hx) (List.forall_mem_nil _)
    | ok o s₁ =>
      obtain ⟨hs, ho⟩ := step o s₁ hx
      cases o with
      | none => exact .of_ok (a := ⟨[], none⟩) (by rw [hx]) hs (List.forall_mem_nil _)
      | some p =>
        obtain ⟨x, seed'⟩ := p
        obtain ⟨hp, hinv⟩ := ho x seed' rfl
        cases hz : view x with
        | error e =>
          exact .of_ok (a := ⟨[], some e⟩) (by simp only [hx, hz]) hs (List.forall_mem_nil _)
        | ok z =>
          cases hr : unfold next view limit seed' s₁ with
          | error e s₂ =>
            exact .of_error (show _ = EStateM.Result.error e s₂ by simp only [hx, hz, hr])
              (Store.le_trans hs ((ih hinv).error e s₂ hr))
          | ok l s₂ =>
            obtain ⟨hs₂, hl⟩ := ih hinv l s₂ hr
            refine .of_ok (a := ⟨z :: l.items, l.failure⟩) (by simp only [hx, hz, hr])
              (Store.le_trans hs hs₂) fun y hy => ?_
            rcases List.mem_cons.mp hy with rfl | hy
            · exact ⟨x, hz, hlater x s₁ s₂ hs₂ hp⟩
            · exact hl y hy

end Combinatory
