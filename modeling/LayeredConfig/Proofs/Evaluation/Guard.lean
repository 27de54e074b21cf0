import LayeredConfig.Proofs.Evaluation.Calls
import Mathlib.Logic.Relation

/-!
# Matching a value again

A transform may have its node evaluated again, and the transform that then takes the node over may
do so too. Along such a chain of calls the frames remember which extensions have matched
(`Call.Chain.visited_eq`), and a child starts with none (`Call.Begins.visited_eq_nil`). So the
transforms that run along a chain belong to different extensions, and which one runs next is told
by the active list and the chain alone (`Call.Chain.runs_first_unused`). The ends of chains are all
the calls that an evaluation comes to make (`Call.exists_chain_iff`).
-/

namespace LayeredConfig

variable {ι : Type} [DecidableEq ι] {catalogue : Catalogue ι}

namespace Call

/-- Calls nested at one node, from a first one down to a last one, and the extensions whose
transforms made them, in order. -/
inductive Chain (catalogue : Catalogue ι) (first : Call ι) : List ι → Call ι → Prop
  | nil : Chain catalogue first [] first
  | again {used : List ι} {call inner : Call ι} {e : ι} :
      Chain catalogue first used call → Reenters catalogue call e inner →
        Chain catalogue first (used ++ [e]) inner

/-- The calls of an evaluation that are the first at their node: that of the root, and those for
the children of a value, wherever a chain of calls got to it. -/
inductive Begins (catalogue : Catalogue ι) (ev : Evaluator ι) (raw : Json) (source : Source) :
    Call ι → Prop
  | root : Begins catalogue ev raw source ⟨ev.rootFrame raw source, raw⟩
  | child {first call inner : Call ι} {used : List ι} :
      Begins catalogue ev raw source first → Chain catalogue first used call →
        Enters catalogue call inner → Begins catalogue ev raw source inner

theorem Begins.visited_eq_nil {ev : Evaluator ι} {raw : Json} {source : Source} {call : Call ι}
    (h : Begins catalogue ev raw source call) : call.frame.visited = [] := by
  cases h with
  | root => rfl
  | child _ _ henters => cases henters <;> rfl

theorem Chain.visited_eq {first call : Call ι} {used : List ι}
    (h : Chain catalogue first used call) :
    call.frame.visited = first.frame.visited ++ used := by
  induction h with
  | nil => rw [List.append_nil]
  | again hchain hreenters ih =>
      obtain ⟨hmatch, -⟩ := hreenters
      rw [← List.append_assoc, ← ih]
      rfl

/-- A call in front of a chain. -/
theorem Chain.head {call first last : Call ι} {used : List ι} {e : ι}
    (h : Reenters catalogue call e first) (hchain : Chain catalogue first used last) :
    Chain catalogue call (e :: used) last := by
  induction hchain with
  | nil => exact .again .nil h
  | again _ hreenters ih => exact .again ih hreenters

theorem Chain.makes {first call : Call ι} {used : List ι} (h : Chain catalogue first used call) :
    Relation.ReflTransGen (Makes catalogue) first call := by
  induction h with
  | nil => exact .refl
  | again _ hreenters ih => exact ih.tail (.again hreenters)

theorem Begins.makes {ev : Evaluator ι} {raw : Json} {source : Source} {first : Call ι}
    (h : Begins catalogue ev raw source first) :
    Relation.ReflTransGen (Makes catalogue) ⟨ev.rootFrame raw source, raw⟩ first := by
  induction h with
  | root => exact .refl
  | child _ hchain henters ih => exact (ih.trans hchain.makes).tail (.below henters)

/-- The calls that an evaluation comes to make are the ends of its chains. -/
theorem exists_chain_iff {ev : Evaluator ι} {raw : Json} {source : Source} {call : Call ι} :
    (∃ first used, Begins catalogue ev raw source first ∧ Chain catalogue first used call) ↔
      Relation.ReflTransGen (Makes catalogue) ⟨ev.rootFrame raw source, raw⟩ call := by
  constructor
  · rintro ⟨first, used, hbegins, hchain⟩
    exact hbegins.makes.trans hchain.makes
  · intro h
    induction h with
    | refl => exact ⟨_, [], .root, .nil⟩
    | tail _ hmakes ih =>
        obtain ⟨first, used, hbegins, hchain⟩ := ih
        cases hmakes with
        | again hreenters => exact ⟨first, _, hbegins, .again hchain hreenters⟩
        | below henters => exact ⟨_, [], .child hbegins hchain henters, .nil⟩

/-- What matches at the end of a chain is told apart from all that was used before. -/
theorem Chain.distinguished_of_match? {first call : Call ι} {used : List ι} {e : ι}
    {transform : Transform ι} (hfirst : first.frame.visited = [])
    (h : Chain catalogue first used call)
    (hmatch : call.frame.match? catalogue call.value = some (e, transform)) :
    ∀ d ∈ used, Distinguished catalogue d e := by
  -- The match was guarded by what its frame had visited, and that is the chain before it.
  obtain ⟨-, -, -, hunused, -, -⟩ := match?_eq_some_iff.1 hmatch
  rwa [h.visited_eq, hfirst, List.nil_append] at hunused

/-- The extensions of a chain are told apart. -/
theorem Chain.pairwise_distinguished {first call : Call ι} {used : List ι}
    (hfirst : first.frame.visited = []) (h : Chain catalogue first used call) :
    used.Pairwise (Distinguished catalogue) := by
  induction h with
  | nil => exact .nil
  | again hchain hreenters ih =>
      obtain ⟨hmatch, -⟩ := hreenters
      refine List.pairwise_append.2 ⟨ih, List.pairwise_singleton _ _, fun d hd e he => ?_⟩
      obtain rfl := List.mem_singleton.1 he
      exact hchain.distinguished_of_match? hfirst hmatch d hd

/-- Wherever calls are nested at one node, their transforms belong to extensions that are told
apart, and so does the transform that runs at the last of them, if one does: it belongs to the
first extension of the list active there that applies and is told apart from all used before.

The calls of a chain are those that `evaluateNode` makes. It makes no others (`evaluateNode_rel`),
what comes of it is made from what came of them (`Invariant.of_result`), where transforms forward it
is what came of the end of such a chain (`exists_descend`), and whatever it reports as matched did
match at the end of one (`Evaluator.exists_chain_of_extensionMatched`). -/
theorem Chain.runs_first_unused {ev : Evaluator ι} {raw : Json} {source : Source}
    {first call : Call ι} {used : List ι} (hfirst : Begins catalogue ev raw source first)
    (h : Chain catalogue first used call) :
    used.Pairwise (Distinguished catalogue) ∧
    ∀ e transform, call.frame.match? catalogue call.value = some (e, transform) ↔
      ∃ before after, call.frame.extensions = before ++ e :: after ∧
        (∀ d ∈ used, Distinguished catalogue d e) ∧
        (catalogue e).applies call.value call.frame.position call.frame.ancestors
          call.frame.context = some transform ∧
        ∀ d ∈ before, (∃ c ∈ used, ¬ Distinguished catalogue c d) ∨
          (catalogue d).applies call.value call.frame.position call.frame.ancestors
            call.frame.context = none := by
  have hvisited := h.visited_eq
  rw [hfirst.visited_eq_nil, List.nil_append] at hvisited
  refine ⟨h.pairwise_distinguished hfirst.visited_eq_nil, fun e transform => ?_⟩
  rw [match?_eq_some_iff, hvisited]

/-- Three extensions that have every value evaluated again. The first two declare one identity. -/
def twins : Catalogue (Fin 3) := fun e =>
  ⟨if e = 2 then none else some "twin", fun value _ _ _ => some (Extension.reparse value .empty)⟩

/-- The call for a root that is tried with the three extensions. -/
def twinsRoot : Call (Fin 3) :=
  ⟨(Evaluator.mk [0, 1, 2] .empty .empty).rootFrame .null (.literal 0 .null), .null⟩

/-- The call that the transform of `e` makes at `call`. -/
def twinsAgain (call : Call (Fin 3)) (e : Fin 3) : Call (Fin 3) :=
  ⟨(call.frame.visit e).overridden { metadata := some .empty }, call.value⟩

/-- The second extension is passed over, for the first has matched. -/
theorem Chain.runs_first_unused_twins :
    Begins twins ⟨[0, 1, 2], .empty, .empty⟩ .null (.literal 0 .null) twinsRoot ∧
    Chain twins twinsRoot [0] (twinsAgain twinsRoot 0) ∧
    Chain twins twinsRoot [0, 2] (twinsAgain (twinsAgain twinsRoot 0) 2) ∧
    (twinsAgain twinsRoot 0).frame.match? twins .null =
      some (2, Extension.reparse .null .empty) ∧
    [0, 2].Pairwise (Distinguished twins) := by
  have hbegins : Begins twins ⟨[0, 1, 2], .empty, .empty⟩ .null (.literal 0 .null) twinsRoot :=
    .root
  have hfirst : Chain twins twinsRoot [0] (twinsAgain twinsRoot 0) :=
    .again .nil (.intro rfl .here)
  have hsecond : Chain twins twinsRoot [0, 2] (twinsAgain (twinsAgain twinsRoot 0) 2) :=
    .again hfirst (.intro rfl .here)
  refine ⟨hbegins, hfirst, hsecond, ?_, (hsecond.runs_first_unused hbegins).1⟩
  refine ((hfirst.runs_first_unused hbegins).2 2 (Extension.reparse .null .empty)).2 ?_
  refine ⟨[0, 1], [], rfl, ?_, rfl, ?_⟩
  · rw [List.forall_mem_singleton, ← sameExtension_eq_false_iff]
    rfl
  · refine fun d hd => .inl ⟨0, List.mem_singleton_self 0, ?_⟩
    rw [← sameExtension_eq_false_iff, Bool.not_eq_false]
    revert d
    decide

end Call

end LayeredConfig
