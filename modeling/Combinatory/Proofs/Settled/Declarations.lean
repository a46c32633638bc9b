import Combinatory.Proofs.Settled.Canonical
import Combinatory.Session

/-!
# Declared rules look at no table in effect

The rule and the hook of a declared combinator are expressions, built from its arguments and the
declared names, and the evaluation of numerals is a run. So what the declarations of a session make
of a combinator is a function of its arguments (`Declarations.steady_rules`), up to any depth.
-/

namespace Combinatory

variable {p p' : Twins} {R : Rules}

namespace Term

/-- Whether a heap tells what every application in a term consists of. -/
abbrev Known (H : Heap) (t : Term) : Prop := t.Recorded (fun _ => True) H

/-- Whether all terms of a list are known. -/
abbrev KnownAll (H : Heap) (ts : List Term) : Prop := RecordedAll (fun _ => True) H ts

/-- The number that a term stands for does not depend on the table. -/
theorem alike_toNumber (hR : R.Steady (fun _ => True) p) (maxSteps : Option Amount) {t : Term}
    (ht : t.Known p.heap) :
    Alike (toNumber R maxSteps t) (toNumber R maxSteps t) p fun _ _ => True := by
  unfold toNumber
  have args : KnownAll p.heap [native .successor, numeral 0] := ⟨trivial, trivial, trivial⟩
  apply Alike.bind (P := fun _ _ => True)
  · cases records_run hR (maxSteps.getD Numeral.defaultSteps) true ht args with
    | ok out p₁ hx hy later _ =>
      refine .ok out p₁ ?_ ?_ later trivial
      · simp only [hx]
      · simp only [hy]
    | error e p₁ hx hy later =>
      refine .error (if e.isBudget then .numeralOutOfSteps t (maxSteps.getD Numeral.defaultSteps)
        else e) p₁ ?_ ?_ later
      · simp only [hx]
      · simp only [hy]
  · intro out p₁ _ _
    split
    · exact .pure trivial
    · exact .throw

theorem records_nestLambda (hR : R.Steady (fun _ => True) p) (n : Nat) {t : Term}
    (ht : t.Known p.heap) : Records (fun _ => True) (nestLambda R t n) p := by
  induction n generalizing p t with
  | zero =>
    unfold nestLambda
    exact .pure ht
  | succ n ih =>
    unfold nestLambda
    apply (Engine.alike_freshVariable p "v").bind
    intro v p₁ hp₁ _
    apply (records_abstract (v := v) (hR.later hp₁) (ht.later hp₁)).bind
    intro u p₂ hp₂ hu
    exact ih (hR.later (Twins.le_trans hp₁ hp₂)) hu

theorem records_nest (hR : R.Steady (fun _ => True) p) (n : Nat) {f t : Term}
    (hf : f.Known p.heap) (ht : t.Known p.heap) : Records (fun _ => True) (nest R f t n) p := by
  induction n generalizing p t with
  | zero =>
    unfold nest
    exact .pure ht
  | succ n ih =>
    unfold nest
    apply (records_apply hR hf (.cons ht .nil)).bind
    intro u p₁ hp hu
    exact ih (hR.later hp) (hf.later hp) hu

end Term

/-! ### Expressions -/

/-- Whether all terms that names stand for are known. -/
def KnownNames (names : List (String × Term)) (p : Twins) : Prop :=
  ∀ q ∈ names, q.2.Known p.heap

theorem KnownNames.later {names : List (String × Term)} (h : KnownNames names p) (hp : p ≤ p') :
    KnownNames names p' :=
  fun q hq => (h q hq).later hp

private theorem KnownNames.lookup {names : List (String × Term)} (h : KnownNames names p)
    {n : String} {t : Term} (ht : names.lookup n = some t) : t.Known p.heap := by
  obtain ⟨_, _, hl, -⟩ := List.lookup_eq_some_iff.mp ht
  exact h (n, t) (hl ▸ by simp)

private theorem knownNames_standard (p : Twins) : KnownNames standardNames p := by
  intro q hq
  obtain ⟨c, -, rfl⟩ := List.mem_map.mp hq
  trivial

private theorem alike_newVariable (p : Twins) (name : Literal) :
    Alike (newVariable name) (newVariable name) p fun _ _ => True := by
  unfold newVariable
  split
  · exact (Engine.alike_freshVariable p _).imp fun _ _ _ _ => trivial
  · exact .throw

private theorem alike_newVariables (names : List Literal) (p : Twins) :
    Alike (names.mapM newVariable) (names.mapM newVariable) p fun _ _ => True := by
  induction names generalizing p with
  | nil =>
    rw [List.mapM_nil]
    exact .pure trivial
  | cons name names ih =>
    rw [List.mapM_cons]
    apply (alike_newVariable p name).bind
    intro v p₁ _ _
    apply (ih p₁).bind
    intro vs p₂ _ _
    exact .pure trivial

namespace Expr

private theorem records_lookup {names scope : List (String × Term)} (hnames : KnownNames names p)
    (hscope : KnownNames scope p) (n : String) :
    Records (fun _ => True) (lookup scope names n) p := by
  unfold lookup
  split
  · next t ht =>
    refine .pure ?_
    rcases Option.or_eq_some_iff.mp ht with ht | ⟨-, ht⟩
    · rcases Option.or_eq_some_iff.mp ht with ht | ⟨-, ht⟩
      · exact hscope.lookup ht
      · exact hnames.lookup ht
    · exact (knownNames_standard p).lookup ht
  · exact .throw

mutual

/-- Building an expression does not depend on the table. -/
theorem records_build {names : List (String × Term)} : ∀ (e : Expr) {p : Twins}
    {scope : List (String × Term)}, R.Steady (fun _ => True) p → KnownNames names p →
      KnownNames scope p → Records (fun _ => True) (build R names scope e) p
  | name n, p, scope, _, hnames, hscope => by
    unfold build
    exact records_lookup hnames hscope n
  | numeral l, p, scope, _, _, _ => by
    unfold build numeralOf
    split
    · exact .pure trivial
    · exact .throw
  | literal x, p, scope, _, _, _ => by
    unfold build
    exact .pure trivial
  | apply head args, p, scope, hR, hnames, hscope => by
    unfold build
    apply (records_build head hR hnames hscope).bind
    intro h p₁ hp₁ hh
    apply (records_buildAll args (hR.later hp₁) (hnames.later hp₁) (hscope.later hp₁)).bind
    intro as p₂ hp₂ has
    exact Term.records_apply (hR.later (Twins.le_trans hp₁ hp₂)) (hh.later hp₂) has
  | application head args, p, scope, hR, hnames, hscope => by
    unfold build
    apply (records_build head hR hnames hscope).bind
    intro h p₁ hp₁ hh
    apply (records_buildAll args (hR.later hp₁) (hnames.later hp₁) (hscope.later hp₁)).bind
    intro as p₂ hp₂ has
    exact Term.records_application (hh.later hp₂) has
  | lambda listed vs body, p, scope, hR, hnames, hscope => by
    unfold build
    apply (alike_newVariables vs p).bind
    intro vs p₁ hp₁ _
    have inner : KnownNames ((vs.map fun v => (v.name, Term.var v)).reverse ++ scope) p₁ := by
      intro q hq
      rcases List.mem_append.mp hq with hq | hq
      · obtain ⟨v, -, rfl⟩ := List.mem_map.mp (List.mem_reverse.mp hq)
        trivial
      · exact (hscope q hq).later hp₁
    apply (records_build body (hR.later hp₁) (hnames.later hp₁) inner).bind
    intro b p₂ hp₂ hb
    exact Term.records_lambdaOver (hR.later (Twins.le_trans hp₁ hp₂)) _ _ hb
  | abstraction listed binders body, p, scope, hR, hnames, hscope => by
    unfold build
    apply (records_buildAll binders hR hnames hscope).bind
    intro bs p₁ hp₁ _
    apply (records_build body (hR.later hp₁) (hnames.later hp₁) (hscope.later hp₁)).bind
    intro b p₂ hp₂ hb
    exact Term.records_lambdaOver (hR.later (Twins.le_trans hp₁ hp₂)) _ _ hb
  | close binder body, p, scope, hR, hnames, hscope => by
    unfold build
    apply (records_build binder hR hnames hscope).bind
    intro v p₁ hp₁ _
    apply (records_build body (hR.later hp₁) (hnames.later hp₁) (hscope.later hp₁)).bind
    intro b p₂ hp₂ hb
    unfold Term.lambda
    split
    · exact Term.records_abstract (hR.later (Twins.le_trans hp₁ hp₂)) hb
    · exact .throw
  | nest n f x, p, scope, hR, hnames, hscope => by
    unfold build
    apply (records_build f hR hnames hscope).bind
    intro f p₁ hp₁ hf
    apply (records_build x (hR.later hp₁) (hnames.later hp₁) (hscope.later hp₁)).bind
    intro x p₂ hp₂ hx
    apply (Engine.alike_whole p₂ n).bind
    intro n p₃ hp₃ _
    have hp := Twins.le_trans hp₁ (Twins.le_trans hp₂ hp₃)
    exact Term.records_nest (hR.later hp) _ (hf.later (Twins.le_trans hp₂ hp₃)) (hx.later hp₃)
  | nestLambda n x, p, scope, hR, hnames, hscope => by
    unfold build
    apply (records_build x hR hnames hscope).bind
    intro x p₁ hp₁ hx
    apply (Engine.alike_whole p₁ n).bind
    intro n p₂ hp₂ _
    exact Term.records_nestLambda (hR.later (Twins.le_trans hp₁ hp₂)) _ (hx.later hp₂)
  | chain n f x, p, scope, hR, hnames, hscope => by
    unfold build
    apply (records_build f hR hnames hscope).bind
    intro f p₁ hp₁ hf
    apply (records_build x (hR.later hp₁) (hnames.later hp₁) (hscope.later hp₁)).bind
    intro x p₂ hp₂ hx
    split
    · refine Term.records_apply (hR.later (Twins.le_trans hp₁ hp₂)) (hf.later hp₂) ?_
      refine Term.recordedAll_iff.mpr fun t ht => ?_
      rw [List.eq_of_mem_replicate ht]
      exact hx
    · exact .throw

theorem records_buildAll {names : List (String × Term)} : ∀ (es : List Expr) {p : Twins}
    {scope : List (String × Term)}, R.Steady (fun _ => True) p → KnownNames names p →
      KnownNames scope p →
        Alike (buildAll R names scope es) (buildAll R names scope es) p
          fun ts p' => Term.KnownAll p'.heap ts
  | [], p, scope, _, _, _ => by
    unfold buildAll
    exact .pure trivial
  | e :: es, p, scope, hR, hnames, hscope => by
    unfold buildAll
    apply (records_build e hR hnames hscope).bind
    intro t p₁ hp₁ ht
    apply (records_buildAll es (hR.later hp₁) (hnames.later hp₁) (hscope.later hp₁)).bind
    intro ts p₂ hp₂ hts
    exact .pure ⟨ht.later hp₂, hts⟩

end

end Expr

namespace Declarations

variable {d : Declarations}

private theorem records_replacement {depth : Nat}
    (ih : ∀ {p}, KnownNames d.names p → (d.rules depth).Steady (fun _ => True) p)
    (hd : KnownNames d.names p) (u : UserNative) {a : Term} (ha : a.Known p.heap) :
    RecordsAny (fun _ => True) ((d.rules (depth + 1)).replacement u a) p := by
  unfold rules
  dsimp only
  split
  · exact .pure nofun
  · split
    · exact .pure nofun
    · next hook _ =>
      split
      · have scope : KnownNames [(hook.param, a)] p := by
          intro q hq
          rw [List.mem_singleton.mp hq]
          exact ha
        apply (Expr.records_build hook.body (ih hd) hd scope).bind
        intro t p₁ _ ht
        refine .pure fun u hu => ?_
        split at hu
        · cases hu
          exact ht
        · cases hu
      · exact .pure nofun

private theorem records_contract {depth : Nat}
    (ih : ∀ {p}, KnownNames d.names p → (d.rules depth).Steady (fun _ => True) p)
    (hd : KnownNames d.names p) (u : UserNative) {as : List Term} (has : Term.KnownAll p.heap as) :
    Records (fun _ => True) ((d.rules (depth + 1)).contract u as) p := by
  unfold rules contract
  dsimp only
  split
  · exact .throw
  · next b _ =>
    refine Expr.records_build b.body (ih hd) hd fun q hq => ?_
    exact Term.recordedAll_iff.mp has _ (List.of_mem_zip (List.mem_reverse.mp hq)).2

/-- What the declarations of a session make of combinators is a function of the arguments, as long
as the declared names stand for known terms. -/
theorem steady_rules (d : Declarations) (depth : Nat) (hd : KnownNames d.names p) :
    (d.rules depth).Steady (fun _ => True) p := by
  induction depth generalizing p with
  | zero =>
    refine ⟨fun _ => trivial, fun u _ p' _ a _ => ?_, fun u _ p' _ as _ => .throw,
      fun _ p' _ t _ => .throw⟩
    unfold rules
    dsimp only
    split
    · exact .pure nofun
    · exact .throw
  | succ depth ih =>
    refine ⟨fun _ => trivial, ?_, ?_, ?_⟩
    · intro u _ p' hp a ha
      exact records_replacement ih (hd.later hp) u ha
    · intro u _ p' hp as has
      exact records_contract ih (hd.later hp) u has
    · intro _ p' hp t ht
      apply (Term.alike_toNumber (ih (hd.later hp)) none ht).bind
      intro n p₁ _ _
      exact .pure trivial

end Declarations

end Combinatory
