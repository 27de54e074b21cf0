import Mathlib.Data.List.Chain
import LayeredConfig.Proofs.Evaluation.Calls

/-!
# How deep calls nest

Extensions that have values evaluated again which are no deeper than what they matched, under the
extensions they were given, cannot keep an evaluation going. A call for a child has less depth
before it, and a call at the same node has one extension less that has not matched yet
(`Call.Makes.nesting_lt`). This bounds chains of calls (`Call.length_le_nesting`), and the
evaluator comes out the same under every limit that is at least the bound
(`evaluateNode_of_nesting_le`).
-/

namespace LayeredConfig

variable {ι : Type}

namespace Extension

/-- Whatever the extension matches, its transform has values evaluated that are no deeper, and
leaves the active list as it is. -/
def StaysWithin (e : Extension ι) : Prop :=
  ∀ {frame : Frame ι} {value : Json} {transform : Transform ι},
    e.applies value frame.position frame.ancestors frame.context = some transform →
      ∀ {v : Json} {overrides : Overrides ι}, (transform frame.input).Asks v overrides →
        v.depth ≤ value.depth ∧ overrides.extensions = none

/-- Evaluating the matched value again, with metadata laid over that of its node, is staying
within it. -/
theorem staysWithin_of_reparse {e : Extension ι}
    (h : ∀ {value : Json} {position : Position} {ancestors : List Position} {context : Context}
      {transform : Transform ι}, e.applies value position ancestors context = some transform →
        ∃ metadata, transform = reparse value metadata) : e.StaysWithin := by
  intro frame value transform happlies v overrides hasks
  obtain ⟨metadata, rfl⟩ := h happlies
  obtain ⟨rfl, rfl⟩ := Program.asks_evaluate.1 hasks
  exact ⟨Nat.le_refl _, rfl⟩

theorem staysWithin_unescapeDirectives (marker : String) :
    (unescapeDirectives marker : Extension ι).StaysWithin :=
  staysWithin_of_reparse fun happlies => by
    obtain ⟨name, -, rfl⟩ := Option.map_eq_some_iff.1 happlies
    exact ⟨_, rfl⟩

theorem staysWithin_markAll (metadata : Metadata) : (markAll metadata : Extension ι).StaysWithin :=
  staysWithin_of_reparse fun happlies => by
    obtain ⟨-, heq⟩ := Option.ite_none_left_eq_some.1 happlies
    exact ⟨metadata, (Option.some.inj heq).symm⟩

end Extension

/-! ### Extensions that are left -/

variable [DecidableEq ι] {catalogue : Catalogue ι}

namespace Frame

/-- How many extensions of the active list have not matched yet. -/
def unused (catalogue : Catalogue ι) (frame : Frame ι) : Nat :=
  frame.extensions.countP fun e => !frame.hasVisited catalogue e

theorem unused_le_length (catalogue : Catalogue ι) (frame : Frame ι) :
    frame.unused catalogue ≤ frame.extensions.length :=
  List.countP_le_length

theorem unused_overridden {frame : Frame ι} {overrides : Overrides ι}
    (h : overrides.extensions = none) :
    (frame.overridden overrides).unused catalogue = frame.unused catalogue := by
  simp [unused, overridden, hasVisited, h]

theorem hasVisited_visit {frame : Frame ι} {d e : ι} :
    (frame.visit e).hasVisited catalogue d =
      (frame.hasVisited catalogue d || sameExtension catalogue e d) := by
  simp [visit, hasVisited]

theorem unused_visit_lt {frame : Frame ι} {e : ι} (hmem : e ∈ frame.extensions)
    (hunused : frame.hasVisited catalogue e = false) :
    (frame.visit e).unused catalogue < frame.unused catalogue := by
  have hleft : (frame.visit e).unused catalogue =
      ((frame.extensions.filter fun d => !frame.hasVisited catalogue d).filter fun d =>
        !sameExtension catalogue e d).length := by
    rw [unused, ← List.countP_eq_length_filter, List.countP_filter]
    exact List.countP_congr fun d _ => by simp [hasVisited_visit, and_comm]
  rw [hleft, unused, List.countP_eq_length_filter, List.length_filter_lt_length_iff_exists]
  exact ⟨e, List.mem_filter.2 ⟨hmem, by simp [hunused]⟩, by simp [sameExtension]⟩

end Frame

/-! ### Calls -/

namespace Call

/-- A bound on the calls that a call can head: `k + 1` of them for every level of its value, where
`k` extensions are active, and at its own node one for each that has not matched yet, besides
itself. -/
def nesting (catalogue : Catalogue ι) (call : Call ι) : Nat :=
  call.value.depth * (call.frame.extensions.length + 1) + call.frame.unused catalogue + 1

theorem Enters.depth_lt {call inner : Call ι} (h : Enters catalogue call inner) :
    inner.value.depth < call.value.depth := by
  cases h with
  | item _ hitem =>
      exact Nat.lt_succ_of_le (Json.depth_le_itemsDepth (List.mem_of_getElem? hitem))
  | member _ hmember => exact Nat.lt_succ_of_le (Json.depth_le_membersDepth hmember)

theorem Enters.nesting_lt {call inner : Call ι} (h : Enters catalogue call inner) :
    inner.nesting catalogue < call.nesting catalogue := by
  have hunused := inner.frame.unused_le_length catalogue
  have hdepth := Nat.mul_le_mul_right (call.frame.extensions.length + 1)
    (Nat.succ_le_of_lt h.depth_lt)
  rw [h.extensions_eq] at hunused
  rw [Nat.succ_mul] at hdepth
  rw [nesting, nesting, h.extensions_eq]
  omega

theorem Reenters.nesting_lt {call inner : Call ι} {e : ι}
    (hwithin : ∀ e ∈ call.frame.extensions, (catalogue e).StaysWithin)
    (h : Reenters catalogue call e inner) :
    inner.frame.extensions = call.frame.extensions ∧
      inner.nesting catalogue < call.nesting catalogue := by
  obtain @⟨frame, value, v, _, _, overrides, hmatch, hasks⟩ := h
  obtain ⟨-, -, -, hfresh, happlies, -⟩ := match?_eq_some_iff.1 hmatch
  have hmem := mem_extensions_of_match? hmatch
  obtain ⟨hdepth, hkept⟩ := hwithin e hmem happlies hasks
  have hext : ((frame.visit e).overridden overrides).extensions = frame.extensions := by
    rw [Frame.overridden, hkept]
    rfl
  have hunused := Frame.unused_visit_lt hmem (hasVisited_eq_false_iff.2 hfresh)
  have hlevels := Nat.mul_le_mul_right (frame.extensions.length + 1) hdepth
  refine ⟨hext, ?_⟩
  simp only [nesting, hext, Frame.unused_overridden hkept]
  omega

/-- Every call that a call makes works under the same list and heads fewer calls. -/
theorem Makes.nesting_lt {call inner : Call ι}
    (hwithin : ∀ e ∈ call.frame.extensions, (catalogue e).StaysWithin)
    (h : Makes catalogue call inner) :
    inner.frame.extensions = call.frame.extensions ∧
      inner.nesting catalogue < call.nesting catalogue := by
  cases h with
  | again hreenters => exact hreenters.nesting_lt hwithin
  | below henters => exact ⟨henters.extensions_eq, henters.nesting_lt⟩

/-- Calls that are nested in one another are at most as many as the first of them can head. -/
theorem length_le_nesting {call : Call ι} {calls : List (Call ι)}
    (hwithin : ∀ e ∈ call.frame.extensions, (catalogue e).StaysWithin)
    (h : List.IsChain (Makes catalogue) (call :: calls)) :
    (call :: calls).length ≤ call.nesting catalogue := by
  induction calls generalizing call with
  | nil => exact Nat.succ_le_succ (Nat.zero_le _)
  | cons inner rest ih =>
      obtain ⟨hmakes, hrest⟩ := List.isChain_cons_cons.1 h
      obtain ⟨hext, hlt⟩ := hmakes.nesting_lt hwithin
      have := ih (by rwa [hext]) hrest
      rw [List.length_cons]
      omega

end Call

/-! ### Evaluation -/

/-- Runs that are the same and do not nest too deep. -/
def Run.SameSettled (α : Type) (x y : Run α) : Prop := x = y ∧ x.result ≠ .error .tooDeep

theorem Run.respected_sameSettled : Run.Respected Run.SameSettled where
  refl h := ⟨rfl, h⟩
  bind := by
    rintro α β x _ f g ⟨rfl, hx⟩ hf
    obtain rfl : f = g := funext fun a => (hf a).1
    refine ⟨rfl, ?_⟩
    rw [Run.result_bind]
    cases hresult : x.result with
    | ok a => exact (hf a).2
    | error s => simpa [hresult, Except.bind] using hx
  beside := by
    rintro α x _ xs ys ⟨rfl, hx⟩ ⟨hxs, hsettled⟩
    obtain rfl : xs = ys := funext fun _ => hxs
    refine ⟨rfl, fun h => ?_⟩
    rcases Run.result_beside_eq_error h with h | h
    · exact hx h
    · exact hsettled h

theorem Run.SameSettled.attempt {α : Type} {x y : Run α} (h : Run.SameSettled α x y) :
    Run.SameSettled _ x.attempt y.attempt := by
  obtain ⟨rfl, hx⟩ := h
  refine ⟨rfl, ?_⟩
  rw [Run.result_attempt]
  cases hresult : x.result with
  | ok a => simp
  | error s =>
      cases s with
      | failed e => simp
      | tooDeep => exact absurd hresult hx

/-- Two limits that are at least the bound make no difference. -/
theorem evaluateNode_of_nesting_le {call : Call ι} {limit limit' : Nat}
    (hwithin : ∀ e ∈ call.frame.extensions, (catalogue e).StaysWithin)
    (h : call.nesting catalogue ≤ limit) (h' : call.nesting catalogue ≤ limit') :
    Run.SameSettled Node (evaluateNode catalogue limit call.frame call.value)
      (evaluateNode catalogue limit' call.frame call.value) := by
  -- The bound falls with every nested call, so neither limit runs out before it does.
  induction limit generalizing limit' call with
  | zero => exact absurd h (Nat.not_succ_le_zero _)
  | succ n ih =>
      obtain ⟨m, rfl⟩ : ∃ m, limit' = m + 1 := Nat.exists_eq_succ_of_ne_zero
        (Nat.pos_iff_ne_zero.1 (Nat.lt_of_lt_of_le (Nat.succ_pos _) h'))
      refine evaluateNode_rel Run.respected_sameSettled Run.SameSettled.attempt
        fun inner hmakes => ?_
      obtain ⟨hext, hlt⟩ := hmakes.nesting_lt hwithin
      exact ih (by rwa [hext]) (by omega) (by omega)

namespace Evaluator

/-- Under `k` extensions that stay within what they match, a value of depth `d` is evaluated in
chains of at most `(k + 1) * (d + 1)` nested calls: the evaluation comes to an end, to the same
one under every limit from there on, and no chain of calls is longer. -/
theorem evaluateWithin_settles (ev : Evaluator ι)
    (hwithin : ∀ e ∈ ev.extensions, (catalogue e).StaysWithin) (raw : Json) (source : Source) :
    (∃ run : Run Node, run.result ≠ .error .tooDeep ∧
      ∀ limit, (ev.extensions.length + 1) * (raw.depth + 1) ≤ limit →
        ev.evaluateWithin catalogue limit raw source = run) ∧
    ∀ calls, List.IsChain (Call.Makes catalogue) (⟨ev.rootFrame raw source, raw⟩ :: calls) →
      calls.length + 1 ≤ (ev.extensions.length + 1) * (raw.depth + 1) := by
  let root : Call ι := ⟨ev.rootFrame raw source, raw⟩
  have hnesting : root.nesting catalogue ≤ (ev.extensions.length + 1) * (raw.depth + 1) := by
    have hunused := root.frame.unused_le_length catalogue
    calc root.nesting catalogue
        = raw.depth * (ev.extensions.length + 1) + root.frame.unused catalogue + 1 := rfl
      _ ≤ raw.depth * (ev.extensions.length + 1) + (ev.extensions.length + 1) :=
          Nat.succ_le_succ (Nat.add_le_add_left hunused _)
      _ = (ev.extensions.length + 1) * (raw.depth + 1) := by rw [Nat.mul_comm, Nat.mul_succ]
  constructor
  · obtain ⟨-, hsettled⟩ := evaluateNode_of_nesting_le hwithin hnesting hnesting
    refine ⟨_, hsettled, fun limit hlimit => ?_⟩
    exact (evaluateNode_of_nesting_le hwithin (Nat.le_trans hnesting hlimit) hnesting).1
  · intro calls hcalls
    have hlength : (root :: calls).length ≤ root.nesting catalogue :=
      Call.length_le_nesting hwithin hcalls
    exact Nat.le_trans hlength hnesting

/-- Unescaping and marking, both of which have every value evaluated again. -/
def unescapedSecrets : Catalogue Bool
  | false => .unescapeDirectives "$"
  | true => .markSecrets

/-- A value of depth 3 under both of them is evaluated in at most 12 nested calls. -/
theorem evaluateWithin_settles_unescapedSecrets :
    (∀ e ∈ [false, true], (unescapedSecrets e).StaysWithin) ∧
    (∃ run : Run Node, run.result ≠ .error .tooDeep ∧
      ∀ limit, 12 ≤ limit →
        (Evaluator.mk [false, true] .empty .empty).evaluateWithin unescapedSecrets limit
          (.object [("a", .array [.object [("$$b", .null)]])]) (.literal 0 .null) = run) ∧
    ∀ calls, List.IsChain (Call.Makes unescapedSecrets)
      (⟨(Evaluator.mk [false, true] .empty .empty).rootFrame
        (.object [("a", .array [.object [("$$b", .null)]])]) (.literal 0 .null),
        .object [("a", .array [.object [("$$b", .null)]])]⟩ :: calls) → calls.length + 1 ≤ 12 := by
  have hwithin : ∀ e ∈ [false, true], (unescapedSecrets e).StaysWithin
    | false, _ => Extension.staysWithin_unescapeDirectives "$"
    | true, _ => Extension.staysWithin_markAll _
  exact ⟨hwithin, evaluateWithin_settles ⟨[false, true], .empty, .empty⟩ hwithin
    (.object [("a", .array [.object [("$$b", .null)]])]) (.literal 0 .null)⟩

end Evaluator

end LayeredConfig
