import Combinatory.Proofs.Settled.Building
import Combinatory.Run

/-!
# Steps look at no table in effect

A step that uses the table of settled applications and one that does not give the same over twins
(`alike_scan`): what the table holds is idle, and so has no step. A step that finds nothing leaves
everything that it has looked through in the table. It follows that runs and walks do not depend on
the table either.
-/

namespace Combinatory

variable {ok : Native → Prop} {p p' : Twins} {R : Rules}

/-- What is known of the result of a computation over the left twin is known of both. -/
theorem Alike.left {α : Type} {x y : Engine α} {Q : α → Twins → Prop} (h : Alike x y p Q) :
    Alike x y p fun a p' => Q a p' ∧ x p.left = .ok a p'.left := by
  cases h with
  | ok a p' hx hy later post => exact .ok a p' hx hy later ⟨post, hx⟩
  | error e p' hx hy later => exact .error e p' hx hy later

/-! ### Rules -/

namespace Native

open Term (Recorded RecordedAll)

theorem records_iterate (hR : R.Steady ok p) {f x : Term} (n : Nat)
    (hf : f.Recorded ok p.heap) (hx : x.Recorded ok p.heap) :
    Records ok (iterate R f x n) p := by
  induction n generalizing p x with
  | zero =>
    unfold iterate
    exact .pure hx
  | succ n ih =>
    unfold iterate
    apply (Term.records_apply hR hf (.cons hx .nil)).bind
    intro y p₁ hp hy
    exact ih (hR.later hp) (hf.later hp) hy

private theorem alike_demandTerms (p : Twins) (parts : List Term) :
    Alike (demandTerms parts) (demandTerms parts) p fun _ _ => True := by
  unfold demandTerms
  split
  · exact .throw
  · exact .pure trivial

/-- A recorded term may be the result of a rule. -/
theorem records_some {x : Engine Term} (hx : Records ok x p) :
    RecordsAny ok (do return some (← x)) p := by
  refine hx.bind ?_
  intro t p₁ _ ht
  exact recordsAny_some ht

theorem records_contract (hR : R.Steady ok p) {c : Native} (hc : ok c) {args : List Term}
    (hargs : RecordedAll ok p.heap args) : RecordsAny ok (c.contract R args) p := by
  unfold contract
  split
  · exact recordsAny_some hargs.1
  · exact recordsAny_some hargs.1
  · next x y z rest =>
    obtain ⟨hx, hy, hz, -⟩ := hargs
    apply (alike_demandTerms p [x, y]).bind
    intro _ p₁ hp₁ _
    apply (Term.records_apply (hR.later hp₁) (hy.later hp₁) (.cons (hz.later hp₁) .nil)).bind
    intro yz p₂ hp₂ hyz
    have hp := Twins.le_trans hp₁ hp₂
    exact records_some
      (Term.records_apply (hR.later hp) (hx.later hp) (.cons (hz.later hp) (.cons hyz .nil)))
  · next x y z rest =>
    obtain ⟨hx, hy, hz, -⟩ := hargs
    apply (alike_demandTerms p [x, y]).bind
    intro _ p₁ hp₁ _
    apply (Term.records_apply (hR.later hp₁) (hy.later hp₁) (.cons (hz.later hp₁) .nil)).bind
    intro yz p₂ hp₂ hyz
    have hp := Twins.le_trans hp₁ hp₂
    exact records_some (Term.records_apply (hR.later hp) (hx.later hp) (.cons hyz .nil))
  · next x y z rest =>
    obtain ⟨hx, hy, hz, -⟩ := hargs
    apply (alike_demandTerms p [x]).bind
    intro _ p₁ hp _
    exact records_some (Term.records_apply (hR.later hp) (hx.later hp)
      (.cons (hz.later hp) (.cons (hy.later hp) .nil)))
  · next x y rest =>
    obtain ⟨hx, hy, -⟩ := hargs
    apply (alike_demandTerms p [x]).bind
    intro _ p₁ hp _
    exact records_some (Term.records_apply (hR.later hp) (hx.later hp)
      (.cons (hy.later hp) (.cons (hy.later hp) .nil)))
  · next n f x rest =>
    obtain ⟨hn, hf, hx, -⟩ := hargs
    apply (alike_demandTerms p [f, n]).bind
    intro _ p₁ hp₁ _
    apply (Term.records_apply (hR.later hp₁) (hn.later hp₁)
      (.cons (hf.later hp₁) (.cons (hx.later hp₁) .nil))).bind
    intro nfx p₂ hp₂ hnfx
    have hp := Twins.le_trans hp₁ hp₂
    exact records_some (Term.records_apply (hR.later hp) (hf.later hp) (.cons hnfx .nil))
  · next n f x rest =>
    obtain ⟨hf, hx, -⟩ := hargs
    exact records_some (records_iterate hR n hf hx)
  · exact records_some (hR.evaluate hc p p.le_refl _ hargs.1)
  · exact recordsAny_some hargs.1
  · next u =>
    split
    · exact recordsAny_none
    · have taken : RecordedAll ok p.heap (args.take u.arity) :=
        Term.recordedAll_iff.mpr fun a ha =>
          Term.recordedAll_iff.mp hargs a (List.mem_of_mem_take ha)
      exact records_some (hR.contract u hc p p.le_refl _ taken)
  · exact recordsAny_none

end Native

namespace Term

open Native (records_some)

theorem records_reduce (hR : R.Steady ok p) {head : Term} {args : List Term}
    (hhead : head.Recorded ok p.heap) (hargs : RecordedAll ok p.heap args) :
    RecordsAny ok (reduce R head args) p := by
  unfold reduce
  split
  · next c =>
    apply (Native.records_contract hR hhead hargs).bind
    intro o p₁ hp ho
    split
    · exact .throw
    · next t _ =>
      have rest : RecordedAll ok p.heap (args.drop c.arity) :=
        recordedAll_iff.mpr fun a ha => recordedAll_iff.mp hargs a (List.mem_of_mem_drop ha)
      exact records_some (records_apply (hR.later hp) (ho t rfl) (rest.later hp))
    · exact recordsAny_none
  · next v b =>
    split
    · exact recordsAny_none
    · next a as =>
      have body : b.Recorded ok p.heap := hhead
      apply (records_instantiate hR body hargs.1).bind
      intro t p₁ hp ht
      exact records_some (records_apply (hR.later hp) ht (hargs.2.later hp))
  · next info d =>
    have definition : d.Recorded ok p.heap := hhead
    apply (Engine.alike_bound p info.arity).bind
    intro n p₁ hp _
    split
    · exact recordsAny_none
    · exact records_some
        (records_apply (hR.later hp) (definition.later hp) (hargs.later hp))
  · exact recordsAny_none

/-! ### Idle terms -/

/-- What is remembered when some idle applications have been looked through: nothing is forgotten,
and where there is a table, all of them. -/
structure Remembered (H : Heap) (tabled : Bool) (ns : List Nat) (s s' : Store) : Prop where
  nextVariable : s'.nextVariable = s.nextVariable
  nextNode : s'.nextNode = s.nextNode
  kept : ∀ n ∈ s.settled, n ∈ s'.settled
  sound : H.Sound s'.settled
  all : tabled = true → ∀ n ∈ ns, n ∈ s'.settled

private theorem Remembered.refl {H : Heap} {tabled : Bool} {s : Store}
    (h : H.Sound s.settled) : Remembered H tabled [] s s :=
  ⟨rfl, rfl, fun _ h => h, h, fun _ => List.forall_mem_nil _⟩

private theorem Remembered.trans {H : Heap} {tabled : Bool} {ms ns : List Nat}
    {s₁ s₂ s₃ : Store} (h : Remembered H tabled ms s₁ s₂) (h' : Remembered H tabled ns s₂ s₃) :
    Remembered H tabled (ms ++ ns) s₁ s₃ where
  nextVariable := h'.nextVariable.trans h.nextVariable
  nextNode := h'.nextNode.trans h.nextNode
  kept n hn := h'.kept n (h.kept n hn)
  sound := h'.sound
  all ht := List.forall_mem_append.mpr ⟨fun n hn => h'.kept n (h.all ht n hn), h'.all ht⟩

/-- An application is remembered after all that it consists of. -/
private theorem Remembered.note {H : Heap} {tabled : Bool} {n : Nat} {hd : Term}
    {as : List Term} {s₁ s₂ : Store}
    (h : Remembered H tabled (hd.nodes ++ nodesAll as) s₁ s₂) (hheap : H n = some (hd, as))
    (hidle : (app n hd as).Idle) :
    ∃ s₃, note tabled n s₂ = .ok () s₃ ∧ Remembered H tabled (app n hd as).nodes s₁ s₃ := by
  cases tabled with
  | false => exact ⟨s₂, rfl, h.nextVariable, h.nextNode, h.kept, h.sound, nofun⟩
  | true =>
    obtain ⟨hh, has⟩ := List.forall_mem_append.mp (h.all rfl)
    refine ⟨{ s₂ with settled := s₂.settled.insert n }, rfl, h.nextVariable, h.nextNode, ?_, ?_, ?_⟩
    · exact fun m hm => Std.HashSet.mem_insert.mpr (.inr (h.kept m hm))
    · exact h.sound.insert hheap hidle hh has
    · intro _ m hm
      rcases List.mem_cons.mp hm with rfl | hm
      · exact Std.HashSet.mem_insert_self
      · exact Std.HashSet.mem_insert.mpr (.inr (h.all rfl m hm))

/-- An application that is known to be in normal form is idle, and remembered with all that it
consists of. -/
private theorem idle_of_known {H : Heap} {s : Store} (hs : H.Sound s.settled) {n : Nat}
    {hd : Term} {as : List Term} (hheap : H n = some (hd, as)) {tabled : Bool}
    (hn : (tabled && s.settled.contains n) = true) :
    (app n hd as).Idle ∧ ∀ m ∈ (app n hd as).nodes, m ∈ s.settled := by
  rw [Bool.and_eq_true] at hn
  obtain ⟨h', as', hheap', hidle, hnodes⟩ := hs n hn.2
  rw [hheap] at hheap'
  cases hheap'
  exact ⟨hidle, hnodes⟩

private theorem known_eq (tabled : Bool) (n : Nat) (s : Store) :
    known tabled n s = .ok (tabled && s.settled.contains n) s := by
  cases tabled <;> rfl

mutual

/-- An idle term has no step, and looking for one remembers what was looked through. -/
private theorem scan_of_idle (R : Rules) {H : Heap} (tabled : Bool) : ∀ (t : Term) {s : Store},
    H.Sound s.settled → t.Recorded ok H → t.Idle →
      ∃ s', scan R tabled t s = .ok none s' ∧ Remembered H tabled t.nodes s s'
  | named info d, s, hs, _, hi => by
    have closed : info.isOpen = false := hi
    exact ⟨s, by rw [scan, closed]; rfl, .refl hs⟩
  | app n h as, s, hs, ht, hi => by
    unfold scan
    cases hn : tabled && s.settled.contains n with
    | true =>
      refine ⟨s, Engine.bind_ok_iff.mpr ⟨_, _, known_eq tabled n s, ?_⟩, ?_⟩
      · rw [hn]
        rfl
      · exact ⟨rfl, rfl, fun _ h => h, hs, fun _ => (idle_of_known hs ht.1 hn).2⟩
    | false =>
      obtain ⟨s₁, h₁, r₁⟩ := scan_of_idle R tabled h hs ht.2.1 hi.2.1
      obtain ⟨s₂, h₂, r₂⟩ := scanAmong_of_idle R tabled as r₁.sound ht.2.2 hi.2.2
      obtain ⟨s₃, h₃, r₃⟩ := (r₁.trans r₂).note ht.1 hi
      refine ⟨s₃, Engine.bind_ok_iff.mpr ⟨_, _, known_eq tabled n s, ?_⟩, r₃⟩
      rw [hn, reduce_of_waits hi.1]
      refine Engine.bind_ok_iff.mpr ⟨_, _, rfl, ?_⟩
      refine Engine.bind_ok_iff.mpr ⟨_, _, h₁, ?_⟩
      refine Engine.bind_ok_iff.mpr ⟨_, _, h₂, ?_⟩
      exact Engine.bind_ok_iff.mpr ⟨_, _, h₃, rfl⟩
  | var v, s, hs, _, _ => ⟨s, by unfold scan; rfl, .refl hs⟩
  | native c, s, hs, _, _ => ⟨s, by unfold scan; rfl, .refl hs⟩
  | foreign x, s, hs, _, _ => ⟨s, by unfold scan; rfl, .refl hs⟩
  | lam v b, s, hs, _, _ => ⟨s, by unfold scan; rfl, .refl hs⟩

private theorem scanAmong_of_idle (R : Rules) {H : Heap} (tabled : Bool) :
    ∀ (as : List Term) {s : Store}, H.Sound s.settled → RecordedAll ok H as → IdleAll as →
      ∃ s', scanAmong R tabled as s = .ok none s' ∧ Remembered H tabled (nodesAll as) s s'
  | [], s, hs, _, _ => ⟨s, by rw [scanAmong]; rfl, .refl hs⟩
  | a :: as, s, hs, has, hi => by
    obtain ⟨s₁, h₁, r₁⟩ := scan_of_idle R tabled a hs has.1 hi.1
    obtain ⟨s₂, h₂, r₂⟩ := scanAmong_of_idle R tabled as r₁.sound has.2 hi.2
    unfold scanAmong
    refine ⟨s₂, Engine.bind_ok_iff.mpr ⟨_, _, h₁, ?_⟩, r₁.trans r₂⟩
    exact Engine.bind_ok_iff.mpr ⟨_, _, h₂, rfl⟩

end

/-! ### Steps -/

/-- What a step tells, with a table or without on either side: what it gives is recorded, and where
it finds nothing, the term is idle and all of it is in the tables. -/
structure Scanned (ok : Native → Prop) (t : Term) (l r : Bool) (o : Option Stepped)
    (p : Twins) : Prop where
  recorded : ∀ u, o = some u → u.term.Recorded ok p.heap
  idle : o = none → t.Idle
  left : o = none → l = true → ∀ n ∈ t.nodes, n ∈ p.left.settled
  right : o = none → r = true → ∀ n ∈ t.nodes, n ∈ p.right.settled

/-- What a step among some terms tells. -/
structure ScannedAmong (ok : Native → Prop) (ts : List Term) (l r : Bool)
    (o : Option SteppedAmong) (p : Twins) : Prop where
  recorded : ∀ u, o = some u → RecordedAll ok p.heap u.terms
  idle : o = none → IdleAll ts
  left : o = none → l = true → ∀ n ∈ nodesAll ts, n ∈ p.left.settled
  right : o = none → r = true → ∀ n ∈ nodesAll ts, n ∈ p.right.settled

private theorem Scanned.of_leaf {t : Term} {l r : Bool} (hi : t.Idle) (hn : t.nodes = []) :
    Scanned ok t l r none p where
  recorded := by rintro _ ⟨⟩
  idle _ := hi
  left _ _ := by simp [hn]
  right _ _ := by simp [hn]

private theorem Scanned.of_some {t : Term} {l r : Bool} {u : Stepped}
    (hu : u.term.Recorded ok p.heap) : Scanned ok t l r (some u) p where
  recorded := by
    rintro _ ⟨⟩
    exact hu
  idle h := nomatch h
  left h := nomatch h
  right h := nomatch h

private theorem ScannedAmong.of_some {ts : List Term} {l r : Bool} {u : SteppedAmong}
    (hu : RecordedAll ok p.heap u.terms) : ScannedAmong ok ts l r (some u) p where
  recorded := by
    rintro _ ⟨⟩
    exact hu
  idle h := nomatch h
  left h := nomatch h
  right h := nomatch h

/-- Twins when both have looked through idle applications. -/
def remember (p : Twins) {l r : Bool} {ms ns : List Nat} {s s' : Store}
    (left : Remembered p.heap l ms p.left s) (right : Remembered p.heap r ns p.right s') :
    Twins where
  heap := p.heap
  left := s
  right := s'
  nextVariable := by rw [left.nextVariable, right.nextVariable, p.nextVariable]
  nextNode := by rw [left.nextNode, right.nextNode, p.nextNode]
  bounded := by
    rw [left.nextNode]
    exact p.bounded
  left_sound := left.sound
  right_sound := right.sound

private theorem le_remember {l r : Bool} {ms ns : List Nat} {s s' : Store}
    (left : Remembered p.heap l ms p.left s) (right : Remembered p.heap r ns p.right s') :
    p ≤ remember p left right where
  heap _ _ h := h
  nextVariable := Int.le_of_eq left.nextVariable.symm
  left := left.kept
  right := right.kept

/-- Both twins look through an idle term in vain. -/
private theorem alike_scan_of_idle (l r : Bool) {t : Term} (ht : t.Recorded ok p.heap)
    (hi : t.Idle) : Alike (scan R l t) (scan R r t) p (Scanned ok t l r) := by
  obtain ⟨s, hs, left⟩ := scan_of_idle R l t p.left_sound ht hi
  obtain ⟨s', hs', right⟩ := scan_of_idle R r t p.right_sound ht hi
  exact .ok none (remember p left right) hs hs' (le_remember left right)
    ⟨nofun, fun _ => hi, fun _ => left.all, fun _ => right.all⟩

/-- Both twins remember an application after all that it consists of. -/
private theorem alike_note {l r : Bool} {n : Nat} {hd : Term} {as : List Term}
    (hheap : p.heap n = some (hd, as)) (hidle : (app n hd as).Idle)
    (hl : l = true → ∀ m ∈ hd.nodes ++ nodesAll as, m ∈ p.left.settled)
    (hr : r = true → ∀ m ∈ hd.nodes ++ nodesAll as, m ∈ p.right.settled) :
    Alike (do note l n; return none) (do note r n; return none) p
      (Scanned ok (app n hd as) l r) := by
  have here {tabled : Bool} {s : Store} (hs : p.heap.Sound s.settled)
      (hall : tabled = true → ∀ m ∈ hd.nodes ++ nodesAll as, m ∈ s.settled) :=
    Remembered.note ⟨rfl, rfl, fun _ h => h, hs, hall⟩ hheap hidle
  obtain ⟨s, hs, left⟩ := here p.left_sound hl
  obtain ⟨s', hs', right⟩ := here p.right_sound hr
  exact .ok none (remember p left right) (Engine.bind_ok_iff.mpr ⟨_, _, hs, rfl⟩)
    (Engine.bind_ok_iff.mpr ⟨_, _, hs', rfl⟩) (le_remember left right)
    ⟨nofun, fun _ => hidle, fun _ => left.all, fun _ => right.all⟩

mutual

/-- A step with a table gives what a step without one gives, and the tables hold what has been
looked through in vain. -/
theorem alike_scan (l r : Bool) : ∀ (t : Term) {p : Twins}, R.Steady ok p →
    t.Recorded ok p.heap → Alike (scan R l t) (scan R r t) p (Scanned ok t l r)
  | app n h as, p, hR, ht => by
    cases hl : l && p.left.settled.contains n with
    | true => exact alike_scan_of_idle l r ht (idle_of_known p.left_sound ht.1 hl).1
    | false =>
      cases hr : r && p.right.settled.contains n with
      | true => exact alike_scan_of_idle l r ht (idle_of_known p.right_sound ht.1 hr).1
      | false =>
        unfold scan
        have unknown : Alike (known l n) (known r n) p fun b p' => b = false ∧ p' = p :=
          .ok false p (by rw [known_eq, hl]) (by rw [known_eq, hr]) p.le_refl ⟨rfl, rfl⟩
        apply unknown.bind
        rintro _ _ - ⟨rfl, rfl⟩
        apply (records_reduce hR ht.2.1 ht.2.2).left.bind
        rintro o p₁ hp₁ ⟨ho, hreduce⟩
        cases o with
        | some t =>
          refine .pure (.of_some ?_)
          exact ho t rfl
        | none =>
          apply (alike_scan l r h (hR.later hp₁) (ht.2.1.later hp₁)).bind
          intro o p₂ hp₂ hhead
          have hp := Twins.le_trans hp₁ hp₂
          cases o with
          | some h' =>
            apply (records_apply (hR.later hp) (hhead.recorded h' rfl) (ht.2.2.later hp)).bind
            intro u p₃ _ hu
            exact .pure (.of_some hu)
          | none =>
            apply (alike_scanAmong l r as (hR.later hp) (ht.2.2.later hp)).bind
            intro o p₃ hp₃ hargs
            have hp := Twins.le_trans hp hp₃
            cases o with
            | some as' =>
              apply (records_apply (hR.later hp) (ht.2.1.later hp) (hargs.recorded as' rfl)).bind
              intro u p₄ _ hu
              exact .pure (.of_some hu)
            | none =>
              refine alike_note (hp.heap _ _ ht.1)
                ⟨waits_of_reduce hreduce, hhead.idle rfl, hargs.idle rfl⟩ ?_ ?_
              · intro hl
                rw [List.forall_mem_append]
                exact ⟨fun m hm => hp₃.left m (hhead.left rfl hl m hm), hargs.left rfl hl⟩
              · intro hr
                rw [List.forall_mem_append]
                exact ⟨fun m hm => hp₃.right m (hhead.right rfl hr m hm), hargs.right rfl hr⟩
  | named info d, p, hR, ht => by
    unfold scan
    cases hi : info.isOpen with
    | true =>
      refine .pure (.of_some ?_)
      exact ht
    | false => exact .pure (.of_leaf hi rfl)
  | var v, p, _, _ => by
    unfold scan
    exact .pure (.of_leaf trivial rfl)
  | native c, p, _, _ => by
    unfold scan
    exact .pure (.of_leaf trivial rfl)
  | foreign x, p, _, _ => by
    unfold scan
    exact .pure (.of_leaf trivial rfl)
  | lam v b, p, _, _ => by
    unfold scan
    exact .pure (.of_leaf trivial rfl)

theorem alike_scanAmong (l r : Bool) : ∀ (as : List Term) {p : Twins}, R.Steady ok p →
    RecordedAll ok p.heap as →
      Alike (scanAmong R l as) (scanAmong R r as) p (ScannedAmong ok as l r)
  | [], p, _, _ => by
    unfold scanAmong
    exact .pure ⟨nofun, fun _ => trivial, fun _ _ => List.forall_mem_nil _,
      fun _ _ => List.forall_mem_nil _⟩
  | a :: as, p, hR, has => by
    unfold scanAmong
    apply (alike_scan l r a hR has.1).bind
    intro o p₁ hp₁ ha
    cases o with
    | some a' => exact .pure (.of_some ⟨ha.recorded a' rfl, has.2.later hp₁⟩)
    | none =>
      apply (alike_scanAmong l r as (hR.later hp₁) (has.2.later hp₁)).bind
      intro o p₂ hp₂ hargs
      cases o with
      | some as' =>
        exact .pure (.of_some ⟨has.1.later (Twins.le_trans hp₁ hp₂), hargs.recorded as' rfl⟩)
      | none =>
        refine .pure ⟨nofun, fun _ => ⟨ha.idle rfl, hargs.idle rfl⟩, ?_, ?_⟩
        · intro _ hl
          rw [nodesAll, List.forall_mem_append]
          exact ⟨fun m hm => hp₂.left m (ha.left rfl hl m hm), hargs.left rfl hl⟩
        · intro _ hr
          rw [nodesAll, List.forall_mem_append]
          exact ⟨fun m hm => hp₂.right m (ha.right rfl hr m hm), hargs.right rfl hr⟩

end

/-- A step with the table gives what the strategy gives without any. -/
theorem alike_step_leftmost (hR : R.Steady ok p) {t : Term} (ht : t.Recorded ok p.heap) :
    Alike (step R t) (leftmost R t) p (Scanned ok t true false) := by
  rw [← scan_true, ← scan_false]
  exact alike_scan true false t hR ht

/-- A step does not depend on the table. -/
theorem alike_step (hR : R.Steady ok p) {t : Term} (ht : t.Recorded ok p.heap) :
    Alike (step R t) (step R t) p (Scanned ok t true true) := by
  rw [← scan_true]
  exact alike_scan true true t hR ht

/-! ### Runs and walks -/

/-- A run as a computation of the engine. -/
def running (R : Rules) (budget : Int) (t : Term) (steps patience : Nat) : Engine Run :=
  fun s => runFrom R budget t steps patience s

/-- A run takes a step, and goes on from what it gives. -/
theorem running_eq (R : Rules) (budget : Int) (t : Term) (steps patience : Nat) :
    running R budget t steps patience =
      if (steps : Int) < budget then do
        match ← step R t with
        | none => return ⟨t, steps, true⟩
        | some r =>
          if r.cost = 0 then
            if R.goesOn patience t = true then running R budget r.term steps (patience - 1)
            else throw .tooDeep
          else running R budget r.term (steps + r.cost) patience
      else do return ⟨t, steps, (← step R t).isNone⟩ := by
  funext s
  change runFrom R budget t steps patience s = _
  rw [runFrom]
  split
  · change _ = EStateM.bind (step R t) _ s
    unfold EStateM.bind
    split
    · next h =>
      rw [h]
    · next h =>
      rw [h]
      rfl
    · next r s₁ h =>
      rw [h]
      dsimp only
      by_cases hc : r.cost = 0
      · by_cases hg : R.goesOn patience t = true
        · rw [dif_pos hc, dif_pos hg, if_pos hc, if_pos hg]
          rfl
        · rw [dif_pos hc, dif_neg hg, if_pos hc, if_neg hg]
          rfl
      · rw [dif_neg hc, if_neg hc]
        rfl
  · change _ = EStateM.bind (step R t) _ s
    unfold EStateM.bind
    cases step R t s <;> rfl

private theorem records_running {p : Twins} (hR : R.Steady ok p) (budget : Int) {t : Term}
    (steps patience : Nat) (ht : t.Recorded ok p.heap) :
    Alike (running R budget t steps patience) (running R budget t steps patience) p
      fun out p' => out.term.Recorded ok p'.heap := by
  rw [running_eq]
  split
  · apply (alike_step hR ht).left.bind
    rintro o p₁ hp ⟨ho, hstep⟩
    cases o with
    | none => exact .pure (ht.later hp)
    | some r =>
      have hr := ho.recorded r rfl
      dsimp only
      by_cases hc : r.cost = 0
      · rw [if_pos hc]
        by_cases hg : R.goesOn patience t = true
        · rw [if_pos hg]
          exact records_running (hR.later hp) budget steps (patience - 1) hr
        · rw [if_neg hg]
          exact .throw
      · rw [if_neg hc]
        exact records_running (hR.later hp) budget (steps + r.cost) patience hr
  · apply (alike_step hR ht).bind
    intro o p₁ hp _
    exact .pure (ht.later hp)
termination_by ((budget - steps).toNat, patience, pending t)
decreasing_by
  · exact .right _ (Rules.goesOn_lt hg fun hq => (pending_step t hq hstep hc).2)
  · apply Prod.Lex.left
    omega

theorem records_run (hR : R.Steady ok p) (budget : Amount) {t : Term} {args : List Term}
    (strict : Bool) (ht : t.Recorded ok p.heap) (hargs : RecordedAll ok p.heap args) :
    Alike (run R budget t args strict) (run R budget t args strict) p
      fun out p' => out.term.Recorded ok p'.heap := by
  unfold run
  apply (records_apply hR ht hargs).bind
  intro start p₁ hp₁ hstart
  apply (Engine.alike_bound p₁ budget).bind
  intro bound p₂ hp₂ _
  have hp := Twins.le_trans hp₁ hp₂
  apply (records_running (hR.later hp) bound 0 patience (hstart.later hp₂)).bind
  intro out p₃ _ hout
  split
  · exact .throw_bind
  · exact .pure hout

private theorem alike_allows (p : Twins) (budget : Option Amount) (steps : Nat) :
    Alike (Walk.allows budget steps) (Walk.allows budget steps) p fun _ _ => True := by
  unfold Walk.allows
  split
  · exact .pure trivial
  · next n =>
    apply (Engine.alike_bound p n).bind
    intro m p₁ _ _
    exact .pure trivial

/-- A walk shows recorded terms and goes on from one. -/
private theorem records_walkNext (hR : R.Steady ok p) (budget : Option Amount) {w : Walk}
    (hw : w.term.Recorded ok p.heap) :
    Alike (Walk.next R budget w) (Walk.next R budget w) p fun o p' => ∀ r w', o = some (r, w') →
      r.term.Recorded ok p'.heap ∧ w'.term.Recorded ok p'.heap := by
  unfold Walk.next
  split
  · exact .pure nofun
  · apply (alike_allows p budget w.steps).bind
    intro go p₁ hp₁ _
    split
    · exact .pure nofun
    · apply (alike_step (hR.later hp₁) (hw.later hp₁)).bind
      intro o p₂ hp₂ ho
      have hw := hw.later (Twins.le_trans hp₁ hp₂)
      cases o with
      | none =>
        refine .pure ?_
        rintro _ _ ⟨⟩
        exact ⟨hw, hw⟩
      | some r =>
        refine .pure ?_
        rintro _ _ ⟨⟩
        exact ⟨hw, ho.recorded r rfl⟩

end Term

/-- A sequence whose steps do not depend on the table, as long as something holds that every step
keeps, lists the same over twins. -/
theorem Listing.alike_unfold {α β σ : Type} {next : σ → Engine (Option (α × σ))}
    {view : α → Except Failure β} {I : σ → Twins → Prop} {P : β → Twins → Prop}
    (hI : ∀ seed p, I seed p → Alike (next seed) (next seed) p fun o p' =>
      ∀ x seed', o = some (x, seed') → (∀ y, view x = .ok y → P y p') ∧ I seed' p')
    (hP : ∀ y p p', p ≤ p' → P y p → P y p') (limit : Nat) {seed : σ} (h : I seed p) :
    Alike (unfold next view limit seed) (unfold next view limit seed) p
      fun l p' => ∀ y ∈ l.items, P y p' := by
  induction limit generalizing seed p with
  | zero => exact .pure (List.forall_mem_nil _)
  | succ limit ih =>
    cases hI seed p h with
    | error e p₁ hx hy later =>
      refine .ok ⟨[], some e⟩ p₁ ?_ ?_ later (List.forall_mem_nil _)
      · simp only [unfold, hx]
      · simp only [unfold, hy]
    | ok o p₁ hx hy later post =>
      rcases o with _ | ⟨x, seed'⟩
      · refine .ok ⟨[], none⟩ p₁ ?_ ?_ later (List.forall_mem_nil _)
        · simp only [unfold, hx]
        · simp only [unfold, hy]
      · obtain ⟨hview, hseed⟩ := post x seed' rfl
        cases hv : view x with
        | error e =>
          refine .ok ⟨[], some e⟩ p₁ ?_ ?_ later (List.forall_mem_nil _)
          · simp only [unfold, hx, hv]
          · simp only [unfold, hy, hv]
        | ok y =>
          cases ih hseed with
          | error e p₂ hx' hy' later' =>
            refine .error e p₂ ?_ ?_ (Twins.le_trans later later')
            · simp only [unfold, hx, hv, hx']
            · simp only [unfold, hy, hv, hy']
          | ok l p₂ hx' hy' later' post' =>
            refine .ok ⟨y :: l.items, l.failure⟩ p₂ ?_ ?_ (Twins.le_trans later later') ?_
            · simp only [unfold, hx, hv, hx']
            · simp only [unfold, hy, hv, hy']
            · exact List.forall_mem_cons.mpr ⟨hP y p₁ p₂ later' (hview y hv), post'⟩

namespace Term

/-- A walk does not depend on the table, and shows recorded terms. -/
theorem records_walk (hR : R.Steady ok p) (budget : Option Amount) (limit : Nat) {t : Term}
    (ht : t.Recorded ok p.heap) :
    Alike (walk R budget limit .ok t) (walk R budget limit .ok t) p
      fun l p' => ∀ r ∈ l.items, r.term.Recorded ok p'.heap := by
  refine Listing.alike_unfold (I := fun (w : Walk) p => R.Steady ok p ∧ w.term.Recorded ok p.heap)
    (P := fun (r : Run) p => r.term.Recorded ok p.heap) ?_ (fun _ _ _ h hr => hr.later h) limit
    ⟨hR, ht⟩
  rintro w p₁ ⟨hR, hw⟩
  apply (records_walkNext hR budget hw).imp
  rintro o p₂ hp ho x seed' rfl
  obtain ⟨hx, hseed⟩ := ho x seed' rfl
  refine ⟨?_, hR.later hp, hseed⟩
  rintro _ ⟨⟩
  exact hx

end Term

end Combinatory
