import LayeredConfig.Extension.Builtin
import LayeredConfig.Proofs.Evaluation.InTurn

/-!
# Waiting

How long transforms wait decides which of several failures ends a container, and what else is
begun before it does. It does not decide whether a tree comes of an evaluation, and which one, as
long as transforms do not tell one failure from another (`Program.Timeless`): a container gives a
tree exactly when all of its members do, however they interleave. Where a transform goes on from one
kind of failure only, time does decide (`Evaluator.not_timeless_recoveringMissing`). Catalogues that
differ in waiting only are those with the same `Catalogue.prompt`.
-/

namespace LayeredConfig

variable {ι α β : Type}

/-! ### Leaving waiting out -/

/-- The program without its waiting. -/
def Program.prompt : Program ι α → Program ι α
  | .done a => .done a
  | .fail e => .fail e
  | .wait _ next => next.prompt
  | .report event next => .report event next.prompt
  | .parse v overrides next => .parse v overrides fun result => (next result).prompt

/-- The extension whose transforms do not wait. -/
def Extension.prompt (e : Extension ι) : Extension ι :=
  { e with
    applies := fun value position ancestors context =>
      (e.applies value position ancestors context).map fun transform input =>
        (transform input).prompt }

/-- The catalogue whose transforms do not wait. -/
def Catalogue.prompt (catalogue : Catalogue ι) : Catalogue ι := fun e => (catalogue e).prompt

theorem Extension.prompt_keyDirective (name : String) (handler : Json → Transform ι) :
    (keyDirective name handler).prompt =
      keyDirective name fun value input => (handler value input).prompt := by
  simp only [Extension.prompt, keyDirective, Extension.mk.injEq, true_and]
  funext value position ancestors context
  by_cases h : position.isKey name = true
  · rw [if_pos h, if_pos h]
    rfl
  · rw [if_neg h, if_neg h]
    rfl

theorem Program.result_run_prompt (parse : Json → Overrides ι → Run Node) (p : Program ι α) :
    (p.prompt.run parse).result = (p.run parse).result := by
  induction p with
  | done a => rfl
  | fail e => rfl
  | wait n next ih =>
      rw [Program.prompt, ih, Program.run, Run.result_bind]
      rfl
  | report event next ih =>
      rw [Program.prompt, Program.run, Program.run, Run.result_bind, Run.result_bind, ih]
  | parse v overrides next ih =>
      rw [Program.prompt, Program.run, Program.run, Run.result_bind, Run.result_bind]
      simp only [ih]

theorem match?_prompt [DecidableEq ι] {catalogue : Catalogue ι} (frame : Frame ι) (value : Json) :
    frame.match? catalogue.prompt value = (frame.match? catalogue value).map fun found =>
      (found.1, fun input => (found.2 input).prompt) := by
  rw [Frame.match?, Frame.match?, List.map_findSome?]
  congr 1
  funext e
  simp only [Function.comp_apply, Option.map_map]
  exact Option.map_map _ _ _

/-! ### Runs that succeed alike -/

namespace Run

theorem result_bind_of_error {x : Run α} {s : Stop} (h : x.result = .error s) (f : α → Run β) :
    (x >>= f).result = .error s := by
  rw [result_bind, h]
  rfl

/-- The same value comes of both runs, or of neither. -/
def SameSuccess (α : Type) (x y : Run α) : Prop :=
  ∀ a, x.result = .ok a ↔ y.result = .ok a

theorem respected_sameSuccess : Respected SameSuccess where
  refl _ := fun _ => Iff.rfl
  bind := by
    intro α β x y f g hx hf b
    rw [result_bind_eq_ok_iff, result_bind_eq_ok_iff]
    exact exists_congr fun a => and_congr (hx a) (hf a b)
  beside := by
    intro α x y xs ys hx hxs as
    rw [result_beside_eq_ok_iff, result_beside_eq_ok_iff]
    exact exists_congr fun a => exists_congr fun rest =>
      and_congr (hx a) (and_congr (hxs rest) Iff.rfl)

/-- What comes of the first run comes of the second, unless that nests too deep. -/
def Follows (x y : Run α) : Prop :=
  ∀ a, x.result = .ok a → y.result = .ok a ∨ y.result = .error .tooDeep

theorem Follows.bind {x y : Run α} {f g : α → Run β} (hx : x.Follows y)
    (hf : ∀ a, (f a).Follows (g a)) : (x >>= f).Follows (y >>= g) := by
  intro b hb
  obtain ⟨a, ha, hfa⟩ := result_bind_eq_ok_iff.1 hb
  rcases hx a ha with hy | hy
  · rw [result_bind, hy]
    exact hf a b hfa
  · exact .inr (result_bind_of_error hy g)

theorem Follows.beside {x y : Run α} {xs ys : Unit → Run (List α)} (hx : x.Follows y)
    (hxs : (xs ()).Follows (ys ())) : (x.beside xs).Follows (y.beside ys) := by
  intro as has
  obtain ⟨a, rest, ha, hrest, rfl⟩ := result_beside_eq_ok_iff.1 has
  -- Neither of the two others can fail, so what stops them can only be their nesting.
  cases hresult : (y.beside ys).result with
  | ok bs =>
      obtain ⟨b, others, hb, hothers, rfl⟩ := result_beside_eq_ok_iff.1 hresult
      have hab : b = a := by simpa [hb] using hx a ha
      have hrests : others = rest := by simpa [hothers] using hxs rest hrest
      exact .inl (by rw [hab, hrests])
  | error s =>
      refine .inr ?_
      rcases result_beside_eq_error hresult with hs | hs
      · simpa [hs] using hx a ha
      · simpa [hs] using hxs rest hrest

/-- Unless one of the runs nests too deep, the same value comes of both or of neither. -/
structure Agree (α : Type) (x y : Run α) : Prop where
  left : x.Follows y
  right : y.Follows x

theorem respected_agree : Respected Agree where
  refl _ := ⟨fun _ => .inl, fun _ => .inl⟩
  bind hx hf := ⟨hx.left.bind fun a => (hf a).left, hx.right.bind fun a => (hf a).right⟩
  beside hx hxs := ⟨hx.left.beside hxs.left, hx.right.beside hxs.right⟩

theorem Agree.result_eq_ok_iff {x y : Run α} (h : Agree α x y)
    (hx : x.result ≠ .error .tooDeep) (hy : y.result ≠ .error .tooDeep) (a : α) :
    x.result = .ok a ↔ y.result = .ok a :=
  ⟨fun ha => (h.left a ha).resolve_right hy, fun ha => (h.right a ha).resolve_right hx⟩

end Run

/-! ### What programs make of failures -/

namespace Program

/-- The program comes out alike when the evaluations that it asks for do. -/
def Respects (R : (α : Type) → Run α → Run α → Prop) (p : Program ι α) : Prop :=
  ∀ parse parse' : Json → Overrides ι → Run Node,
    (∀ v overrides, R Node (parse v overrides) (parse' v overrides)) →
      R α (p.run parse) (p.run parse')

/-- The answer depends on the trees of the evaluations that the program asks for, and for one that
fails on nothing but that it does. When they end and which of several failures ends them is a
matter of time, so a program that goes on from one kind of failure only is not timeless
(`not_timeless_evaluateUnlessMissing`). -/
def Timeless (p : Program ι α) : Prop := p.Respects Run.Agree

/-- The program has no answer, whatever comes of the evaluations that it asks for. -/
def NeverAnswers (p : Program ι α) : Prop :=
  ∀ (parse : Json → Overrides ι → Run Node) (a : α), (p.run parse).result ≠ .ok a

/-- The program has no answer once an evaluation that it asked for has failed. -/
def PassesOn : Program ι α → Prop
  | .done _ => True
  | .fail _ => True
  | .wait _ next => next.PassesOn
  | .report _ next => next.PassesOn
  | .parse _ _ next =>
    (∀ e, (next (.error e)).NeverAnswers) ∧ ∀ node, (next (.ok node)).PassesOn

/-- Having a value evaluated is passing on its failure. -/
theorem passesOn_evaluate (v : Json) (overrides : Overrides ι) :
    (evaluate v overrides).PassesOn :=
  ⟨fun _ _ _ h => (nomatch h), fun _ => trivial⟩

variable {parse parse' : Json → Overrides ι → Run Node}

theorem result_run_parse_eq_ok_iff {v : Json} {overrides : Overrides ι}
    {next : Except ConfigError Node → Program ι α} (h : ∀ e, (next (.error e)).NeverAnswers)
    {a : α} :
    ((Program.parse v overrides next).run parse).result = .ok a ↔
      ∃ node, (parse v overrides).result = .ok node ∧
        ((next (.ok node)).run parse).result = .ok a := by
  rw [Program.run, Run.result_bind_eq_ok_iff, Run.result_attempt]
  cases (parse v overrides).result with
  | ok node => simp
  | error s =>
      cases s with
      | failed e => simp [h e parse a]
      | tooDeep => simp

theorem PassesOn.respects_sameSuccess {p : Program ι α} (hp : p.PassesOn) :
    p.Respects Run.SameSuccess := by
  intro parse parse' h
  induction p with
  | done a => exact fun _ => Iff.rfl
  | fail e => exact fun _ => Iff.rfl
  | wait n next ih => exact Run.respected_sameSuccess.bind (fun _ => Iff.rfl) fun _ => ih hp
  | report event next ih => exact Run.respected_sameSuccess.bind (fun _ => Iff.rfl) fun _ => ih hp
  | parse v overrides next ih =>
      intro a
      rw [result_run_parse_eq_ok_iff hp.1, result_run_parse_eq_ok_iff hp.1]
      exact exists_congr fun node =>
        and_congr (h v overrides node) (ih (.ok node) (hp.2 node) a)

theorem PassesOn.follows {p : Program ι α} (hp : p.PassesOn)
    (h : ∀ v overrides, (parse v overrides).Follows (parse' v overrides)) :
    (p.run parse).Follows (p.run parse') := by
  induction p with
  | done a => exact fun _ => .inl
  | fail e => exact fun _ => .inl
  | wait n next ih => exact Run.Follows.bind (fun _ => .inl) fun _ => ih hp
  | report event next ih => exact Run.Follows.bind (fun _ => .inl) fun _ => ih hp
  | parse v overrides next ih =>
      intro a ha
      obtain ⟨node, hnode, hnext⟩ := (result_run_parse_eq_ok_iff hp.1).1 ha
      rw [Program.run, Run.result_bind, Run.result_attempt]
      rcases h v overrides node hnode with hok | hdeep
      · rw [hok]
        exact ih (.ok node) (hp.2 node) a hnext
      · rw [hdeep]
        exact .inr rfl

theorem PassesOn.timeless {p : Program ι α} (hp : p.PassesOn) : p.Timeless := fun _ _ h =>
  ⟨hp.follows fun v overrides => (h v overrides).left,
    hp.follows fun v overrides => (h v overrides).right⟩

/-- Has a value evaluated, and answers with `fallback` when that fails. -/
def evaluateOr (v : Json) (overrides : Overrides ι) (fallback : Node) : Program ι Node :=
  .parse v overrides fun
    | .ok node => .done node
    | .error _ => .done fallback

theorem result_run_evaluateOr {v : Json} {overrides : Overrides ι} {fallback : Node} :
    ((evaluateOr v overrides fallback).run parse).result =
      match (parse v overrides).result with
      | .ok node => .ok node
      | .error (.failed _) => .ok fallback
      | .error .tooDeep => .error .tooDeep := by
  rw [evaluateOr, Program.run, Run.result_bind, Run.result_attempt]
  cases (parse v overrides).result with
  | ok node => rfl
  | error s => cases s <;> rfl

/-- A program may also go on from failures, as long as it goes on from all in the same way. -/
theorem timeless_evaluateOr (v : Json) (overrides : Overrides ι) (fallback : Node) :
    (evaluateOr v overrides fallback).Timeless := by
  have hfollows : ∀ {parse parse' : Json → Overrides ι → Run Node},
      Run.Agree Node (parse v overrides) (parse' v overrides) →
        ((evaluateOr v overrides fallback).run parse).Follows
          ((evaluateOr v overrides fallback).run parse') := by
    intro parse parse' h node hnode
    rw [result_run_evaluateOr] at hnode ⊢
    cases hresult : (parse v overrides).result with
    | ok other =>
        rw [hresult] at hnode
        rcases h.left other hresult with hok | hdeep
        · rw [hok]
          exact .inl hnode
        · rw [hdeep]
          exact .inr rfl
    | error s =>
        rw [hresult] at hnode
        cases s with
        | failed e =>
            cases hresult' : (parse' v overrides).result with
            | ok other =>
                have hother := h.right other hresult'
                simp [hresult] at hother
            | error t =>
                cases t with
                | failed _ => exact .inl hnode
                | tooDeep => exact .inr rfl
        | tooDeep => cases hnode
  intro parse parse' h
  have hback := h v overrides
  exact ⟨hfollows hback, hfollows ⟨hback.right, hback.left⟩⟩

/-- Has a value evaluated, and answers with `fallback` when that fails for something missing. Any
other failure is passed on. -/
def evaluateUnlessMissing (v : Json) (overrides : Overrides ι) (fallback : Node) : Program ι Node :=
  .parse v overrides fun
    | .ok node => .done node
    | .error e => if e.isNotFound then .done fallback else .fail e

theorem not_timeless_evaluateUnlessMissing (v : Json) (overrides : Overrides ι) (fallback : Node) :
    ¬ (evaluateUnlessMissing v overrides fallback).Timeless := by
  intro h
  have hagree := h (fun _ _ => Run.fail (.notFound "" "")) (fun _ _ => Run.fail (.internal ""))
    fun _ _ => ⟨fun _ hok => (nomatch hok), fun _ hok => (nomatch hok)⟩
  -- No tree comes of either evaluation, and yet the program answers after the first one.
  rcases hagree.left fallback rfl with hok | hdeep
  · cases hok
  · cases hdeep

end Program

/-! ### Evaluation -/

section

variable [DecidableEq ι] {catalogue catalogue' : Catalogue ι}

/-- Under catalogues that differ in waiting only, calls come out alike as soon as all calls with
one call less to nest do. -/
theorem evaluateNode_rel_of_prompt_eq {R : (α : Type) → Run α → Run α → Prop}
    (hR : Run.Respected R)
    (hresult : ∀ {α : Type} {x x' y y' : Run α}, x'.result = x.result → y'.result = y.result →
      R α x y → R α x' y')
    (hprompt : catalogue.prompt = catalogue'.prompt)
    (hprograms : catalogue.Programs (Program.Respects R)) {limit limit' : Nat}
    (h : ∀ frame value, R Node (evaluateNode catalogue limit frame value)
      (evaluateNode catalogue' limit' frame value)) (frame : Frame ι) (value : Json) :
    R Node (evaluateNode catalogue (limit + 1) frame value)
      (evaluateNode catalogue' (limit' + 1) frame value) := by
  have hfound : (frame.match? catalogue value).map (fun found =>
        (found.1, fun input => (found.2 input).prompt)) =
      (frame.match? catalogue' value).map (fun found =>
        (found.1, fun input => (found.2 input).prompt)) := by
    rw [← match?_prompt, ← match?_prompt, hprompt]
  cases hmatch : frame.match? catalogue value with
  | none =>
      have hmatch' : frame.match? catalogue' value = none := by simpa [hmatch] using hfound.symm
      simp only [evaluateNode, hmatch, hmatch']
      exact descend_rel hR hmatch fun inner _ => h inner.frame inner.value
  | some found =>
      obtain ⟨e, transform⟩ := found
      rw [hmatch] at hfound
      obtain ⟨⟨e', transform'⟩, hmatch', heq⟩ := Option.map_eq_some_iff.1 hfound.symm
      obtain ⟨rfl, hsame⟩ := Prod.ext_iff.1 heq
      have hprogram : (transform' frame.input).prompt = (transform frame.input).prompt :=
        congrFun hsame frame.input
      have hrun : ∀ parse, ((transform' frame.input).run parse).result =
          ((transform frame.input).run parse).result := fun parse => by
        rw [← Program.result_run_prompt, hprogram, Program.result_run_prompt]
      have hpair := (hprograms _).of_match? hmatch _ _ fun v overrides =>
        h ((frame.visit e').overridden overrides) v
      -- The two runs differ in rounds and events, which is why `R` must look at results alone.
      simp only [evaluateNode, hmatch, hmatch']
      refine hresult ?_ ?_ hpair
      · rw [Run.result_bind]
        rfl
      · rw [Run.result_bind]
        exact hrun _

theorem evaluateNode_sameSuccess (hprompt : catalogue.prompt = catalogue'.prompt)
    (hprograms : catalogue.Programs Program.PassesOn) (limit : Nat) (frame : Frame ι)
    (value : Json) :
    Run.SameSuccess Node (evaluateNode catalogue limit frame value)
      (evaluateNode catalogue' limit frame value) := by
  induction limit generalizing frame value with
  | zero => exact fun _ => Iff.rfl
  | succ n ih =>
      refine evaluateNode_rel_of_prompt_eq Run.respected_sameSuccess ?_ hprompt ?_ ih frame value
      · intro α x x' y y' hx hy h a
        rw [hx, hy]
        exact h a
      · exact fun e => (hprograms e).mono fun _ hp => hp.respects_sameSuccess

theorem evaluateNode_agree (hprompt : catalogue.prompt = catalogue'.prompt)
    (hprograms : catalogue.Programs Program.Timeless) (limit limit' : Nat) (frame : Frame ι)
    (value : Json) :
    Run.Agree Node (evaluateNode catalogue limit frame value)
      (evaluateNode catalogue' limit' frame value) := by
  induction limit generalizing limit' frame value with
  | zero => exact ⟨fun _ hok => (nomatch hok), fun _ _ => .inr rfl⟩
  | succ n ih =>
      cases limit' with
      | zero => exact ⟨fun _ _ => .inr rfl, fun _ hok => (nomatch hok)⟩
      | succ m =>
          refine evaluateNode_rel_of_prompt_eq Run.respected_agree ?_ hprompt hprograms (ih m)
            frame value
          intro α x x' y y' hx hy h
          refine ⟨fun a ha => ?_, fun a ha => ?_⟩
          · rw [hy]
            exact h.left a (hx ▸ ha)
          · rw [hx]
            exact h.right a (hy ▸ ha)

namespace Evaluator

/-- Where two catalogues differ in the waiting of their transforms only, and no transform tells one
failure from another, evaluations that come to an end succeed under both or under neither, and with
the same tree. `Program.Timeless` leaves out transforms that go on from one kind of failure only,
from something missing say: which failure they meet depends on the waiting
(`not_timeless_recoveringMissing`). Where transforms pass failures on, an evaluation also comes to
an end under both as soon as it succeeds under one. And where they never wait, a tree or a failure
comes of it as of evaluating members one after the other. -/
theorem evaluateWithin_of_prompt_eq (hprompt : catalogue.prompt = catalogue'.prompt)
    (ev : Evaluator ι) (raw : Json) (source : Source) :
    (catalogue.Programs Program.Timeless → ∀ limit limit',
      (ev.evaluateWithin catalogue limit raw source).result ≠ .error .tooDeep →
      (ev.evaluateWithin catalogue' limit' raw source).result ≠ .error .tooDeep →
        ∀ tree, (ev.evaluateWithin catalogue limit raw source).result = .ok tree ↔
          (ev.evaluateWithin catalogue' limit' raw source).result = .ok tree) ∧
    (catalogue.Programs Program.PassesOn → ∀ limit tree,
      (ev.evaluateWithin catalogue limit raw source).result = .ok tree ↔
        (ev.evaluateWithin catalogue' limit raw source).result = .ok tree) ∧
    (catalogue.Programs Program.NeverWaits → ∀ limit,
      (ev.evaluateWithin catalogue limit raw source).result =
        ev.evaluateInTurn catalogue limit raw source) := by
  refine ⟨fun hprograms limit limit' hends hends' tree => ?_, fun hprograms limit tree => ?_,
    fun hprograms limit => ?_⟩
  · exact (evaluateNode_agree hprompt hprograms limit limit' _ _).result_eq_ok_iff hends hends' tree
  · exact evaluateNode_sameSuccess hprompt hprograms limit _ _ tree
  · exact (atOnce_evaluateNode hprograms limit _ _).result

end Evaluator

end

namespace Evaluator

/-- A directive that fails after a while, and one that goes on from that. -/
def recovering (rounds : Json → Nat) : Catalogue Bool
  | false => .keyDirective "$fail" fun v _ => .wait (rounds v) (.fail (.internal v.render))
  | true => .keyDirective "$or" fun v input => .evaluateOr v {} (.leaf (.of input.source v) .null)

/-- A directive that has its value evaluated after a while. -/
def delayed (rounds : Json → Nat) : Catalogue Unit := fun _ =>
  .keyDirective "$late" fun v _ => .wait (rounds v) (.evaluate v {})

theorem prompt_recovering (rounds : Json → Nat) :
    (recovering rounds).prompt = (recovering fun _ => 0).prompt := by
  funext e
  cases e with
  | false => simp [Catalogue.prompt, recovering, Extension.prompt_keyDirective, Program.prompt]
  | true => simp [Catalogue.prompt, recovering, Extension.prompt_keyDirective]

theorem prompt_delayed (rounds : Json → Nat) :
    (delayed rounds).prompt = (delayed fun _ => 0).prompt := by
  funext e
  simp [Catalogue.prompt, delayed, Extension.prompt_keyDirective, Program.prompt]

theorem timeless_recovering (rounds : Json → Nat) :
    (recovering rounds).Programs Program.Timeless
  | false => Extension.programs_keyDirective fun _ _ => Program.PassesOn.timeless trivial
  | true => Extension.programs_keyDirective fun _ _ => Program.timeless_evaluateOr _ _ _

theorem passesOn_delayed (rounds : Json → Nat) : (delayed rounds).Programs Program.PassesOn :=
  fun _ => Extension.programs_keyDirective fun value _ => Program.passesOn_evaluate value {}

theorem neverWaits_delayed : (delayed fun _ => 0).Programs Program.NeverWaits :=
  fun _ => Extension.programs_keyDirective fun _ _ => ⟨rfl, fun result => by
    cases result <;> trivial⟩

/-- Three rounds for one value, one for any other. -/
def slowFirst (value : Json) : Nat := if value = .string "a" then 3 else 1

/-- Two members that fail, inside one that goes on from failures. -/
def recoveredDocument : Json :=
  .object [("$or", .object
    [("a", .object [("$fail", .string "a")]), ("b", .object [("$fail", .string "b")])])]

/-- Two members, the first of which is there only after a while. -/
def delayedDocument : Json := .object [("a", .object [("$late", .string "a")]), ("b", .null)]

theorem evaluateWithin_of_prompt_eq_delayed :
    ((recovering slowFirst).prompt = (recovering fun _ => 0).prompt ∧
      (recovering slowFirst).Programs Program.Timeless ∧
      ∃ tree, ((Evaluator.mk [false, true] .empty .empty).evaluateWithin (recovering slowFirst) 5
          recoveredDocument (.literal 0 .null)).result = .ok tree ∧
        ((Evaluator.mk [false, true] .empty .empty).evaluateWithin (recovering fun _ => 0) 5
          recoveredDocument (.literal 0 .null)).result = .ok tree) ∧
    (delayed slowFirst).prompt = (delayed fun _ => 0).prompt ∧
      (delayed slowFirst).Programs Program.PassesOn ∧
      (delayed fun _ => 0).Programs Program.NeverWaits ∧
      ∃ tree, ((Evaluator.mk [()] .empty .empty).evaluateWithin (delayed slowFirst) 5
          delayedDocument (.literal 0 .null)).result = .ok tree ∧
        (Evaluator.mk [()] .empty .empty).evaluateInTurn (delayed fun _ => 0) 5 delayedDocument
          (.literal 0 .null) = .ok tree := by
  refine ⟨⟨prompt_recovering _, timeless_recovering _, ?_⟩, prompt_delayed _, passesOn_delayed _,
    neverWaits_delayed, ?_⟩
  · obtain ⟨tree, htree⟩ : ∃ tree, ((Evaluator.mk [false, true] .empty .empty).evaluateWithin
        (recovering fun _ => 0) 5 recoveredDocument (.literal 0 .null)).result = .ok tree :=
      ⟨_, rfl⟩
    obtain ⟨htimeless, -, -⟩ := evaluateWithin_of_prompt_eq (prompt_recovering slowFirst)
      ⟨[false, true], .empty, .empty⟩ recoveredDocument (.literal 0 .null)
    refine ⟨tree, (htimeless (timeless_recovering _) 5 5 nofun ?_ tree).2 htree, htree⟩
    rw [htree]
    exact nofun
  · obtain ⟨tree, htree⟩ : ∃ tree, ((Evaluator.mk [()] .empty .empty).evaluateWithin
        (delayed fun _ => 0) 5 delayedDocument (.literal 0 .null)).result = .ok tree := ⟨_, rfl⟩
    obtain ⟨-, hpassesOn, -⟩ := evaluateWithin_of_prompt_eq (prompt_delayed slowFirst)
      ⟨[()], .empty, .empty⟩ delayedDocument (.literal 0 .null)
    obtain ⟨-, -, hinTurn⟩ := evaluateWithin_of_prompt_eq (prompt_delayed fun _ => 0)
      ⟨[()], .empty, .empty⟩ delayedDocument (.literal 0 .null)
    exact ⟨tree, (hpassesOn (passesOn_delayed _) 5 tree).2 htree,
      (hinTurn neverWaits_delayed 5).symm.trans htree⟩

/-- A directive that fails after a while, for something missing when its value is `"a"`, and one
that goes on from what is missing. -/
def recoveringMissing (rounds : Json → Nat) : Catalogue Bool
  | false => .keyDirective "$fail" fun v _ => .wait (rounds v) (.fail
    (if v = .string "a" then .notFound "a" "it is not there" else .internal v.render))
  | true => .keyDirective "$or" fun v input =>
    .evaluateUnlessMissing v {} (.leaf (.of input.source v) .null)

/-- The directive that goes on is not timeless, whatever the waiting. -/
theorem not_timeless_recoveringMissing (rounds : Json → Nat) :
    ¬ (recoveringMissing rounds).Programs Program.Timeless := by
  intro h
  have hprogram := h true .null (.key "$or") [] .empty _ rfl
    (((Evaluator.mk [] .empty .empty).rootFrame .null (.literal 0 .null)).input)
  exact Program.not_timeless_evaluateUnlessMissing _ _ _ hprogram

/-- Of the two members that fail, the missing one comes first when neither waits, and the evaluation
goes on from there. When it waits the longer, the other one ends the object, and the evaluation. -/
example :
    ((Evaluator.mk [false, true] .empty .empty).evaluateWithin (recoveringMissing fun _ => 0) 5
        recoveredDocument (.literal 0 .null)).result.isOk = true ∧
      ((Evaluator.mk [false, true] .empty .empty).evaluateWithin (recoveringMissing slowFirst) 5
        recoveredDocument (.literal 0 .null)).result.isOk = false := by decide

end Evaluator

end LayeredConfig
