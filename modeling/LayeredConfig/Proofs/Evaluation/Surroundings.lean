import LayeredConfig.Proofs.Evaluation.Calls
import LayeredConfig.Proofs.Json.Everywhere
import LayeredConfig.Proofs.Members.Listed
import Mathlib.Logic.Relation

/-!
# What extensions see of their surroundings

A call of an evaluation stands at the end of a chain of calls from the root. `Call.Reached` keeps
the overrides along it in two lists: those made at nodes above, and those made at this very node. A
child takes its surroundings from where it stands, and its settings are handed down, but metadata is
not. A value that is evaluated again keeps its surroundings and has overrides laid over its
settings.

When transforms have nothing but the value that they matched evaluated again, all that a call tells
extensions about its surroundings is true (`Call.informed_of_reached`): `Call.Informed` is what each
of the steps keeps.
-/

namespace LayeredConfig

/-! ### Values at positions -/

namespace Json

/-- The value at a position of a container. -/
def inside? (v : Json) : Position → Option Json
  | .root => none
  | .key name => v.member? name
  | .index n => v.item? n

/-- The value that positions lead down to from a value. -/
def follow? : Json → List Position → Option Json
  | v, [] => some v
  | v, position :: path => (v.inside? position).bind (follow? · path)

/-- The value at a stack of positions, of which the first is that of the root. -/
def standing? (v : Json) : List Position → Option Json
  | .root :: path => v.follow? path
  | _ => none

theorem Distinct.inside? {v w : Json} {position : Position} (hv : v.Distinct)
    (h : v.inside? position = some w) : w.Distinct := by
  cases position with
  | root => cases h
  | key name =>
      obtain ⟨members, hmembers, hget⟩ := Option.bind_eq_some_iff.1 h
      cases hv with
      | object _ hbelow =>
          obtain rfl := Option.some.inj hmembers
          exact hbelow _ _ (Members.mem_of_get?_eq_some hget)
      | _ => cases hmembers
  | index n =>
      obtain ⟨items, hitems, hget⟩ := Option.bind_eq_some_iff.1 h
      cases hv with
      | array hbelow =>
          obtain rfl := Option.some.inj hitems
          exact hbelow _ (List.mem_of_getElem? hget)
      | _ => cases hitems

theorem Distinct.follow? {v w : Json} {path : List Position} (hv : v.Distinct)
    (h : v.follow? path = some w) : w.Distinct := by
  induction path generalizing v with
  | nil =>
      obtain rfl := Option.some.inj h
      exact hv
  | cons position path ih =>
      obtain ⟨part, hpart, hrest⟩ := Option.bind_eq_some_iff.1 h
      exact ih (hv.inside? hpart) hrest

theorem follow?_concat (v : Json) (path : List Position) (position : Position) :
    v.follow? (path ++ [position]) = (v.follow? path).bind (·.inside? position) := by
  induction path generalizing v with
  | nil => simp [follow?]
  | cons first path ih => simp [follow?, ih, Option.bind_assoc]

theorem Distinct.standing? {v w : Json} {stack : List Position} (hv : v.Distinct)
    (h : v.standing? stack = some w) : w.Distinct := by
  unfold Json.standing? at h
  split at h
  · exact hv.follow? h
  · cases h

theorem standing?_concat {v w : Json} {stack : List Position} (h : v.standing? stack = some w)
    (position : Position) : v.standing? (stack ++ [position]) = w.inside? position := by
  unfold standing? at h
  split at h
  · rw [List.cons_append, standing?, follow?_concat, h, Option.bind_some]
  · cases h

end Json

/-! ### Settings below overrides -/

/-- The context with those of the overrides laid over it, one after the other. -/
def Context.overridden {ι : Type} (context : Context) (overrides : List (Overrides ι)) : Context :=
  (overrides.filterMap Overrides.context).foldl Context.extended context

/-- The metadata with those of the overrides laid over it, one after the other. -/
def Metadata.overridden {ι : Type} (metadata : Metadata) (overrides : List (Overrides ι)) :
    Metadata :=
  (overrides.filterMap Overrides.metadata).foldl Metadata.extended metadata

theorem foldl_filterMap_concat {α β γ : Type} (f : γ → β → γ) (g : α → Option β) (init : γ)
    (xs : List α) (x : α) :
    ((xs ++ [x]).filterMap g).foldl f init =
      (g x).elim ((xs.filterMap g).foldl f init) (f ((xs.filterMap g).foldl f init)) := by
  rw [List.filterMap_append, List.foldl_append]
  cases h : g x <;> simp [h]

namespace Call

/-! ### What a call tells extensions -/

section

variable {ι : Type} {ev : Evaluator ι} {raw : Json} {source : Source}
  {outer here : List (Overrides ι)}

/-- What a call tells extensions about its surroundings is true. It asks them about its value, with
the position, the ancestors and the context of its frame, and gives a transform the input of the
frame. The value, the parent and the root stand where the positions say; the context is that of the
evaluator under the overrides made above and here; the metadata that the node will have is due to
overrides made here, besides that of the evaluator at the root. -/
structure Informed (ev : Evaluator ι) (raw : Json) (outer here : List (Overrides ι))
    (call : Call ι) : Prop where
  first : call.frame.positions.head? = some .root
  value : raw.standing? call.frame.positions = some call.value
  root : call.frame.input.root = raw
  parent : call.frame.input.parent = raw.standing? call.frame.input.ancestors
  context : call.frame.context = ev.context.overridden (outer ++ here)
  metadata : call.frame.metadata =
    (if call.frame.position = .root then ev.metadata else .empty).overridden here

theorem informed_root : Informed ev raw [] [] ⟨ev.rootFrame raw source, raw⟩ where
  first := rfl
  value := rfl
  root := rfl
  parent := rfl
  context := rfl
  metadata := rfl

/-- A value that is evaluated again stands where it stood. -/
theorem Informed.again {frame : Frame ι} {value : Json}
    (h : Informed ev raw outer here ⟨frame, value⟩) (e : ι) (overrides : Overrides ι) :
    Informed ev raw outer (here ++ [overrides]) ⟨(frame.visit e).overridden overrides, value⟩ where
  first := h.first
  value := h.value
  root := h.root
  parent := h.parent
  context := by
    rw [← List.append_assoc, Context.overridden, foldl_filterMap_concat]
    exact congrArg (fun c => overrides.context.elim c c.extended) h.context
  metadata := by
    rw [Metadata.overridden, foldl_filterMap_concat]
    exact congrArg (fun m => overrides.metadata.elim m m.extended) h.metadata

/-- Below a call, the frame of a child says where the child stands. -/
theorem Informed.child {frame : Frame ι} {value item : Json} {position : Position}
    (h : Informed ev raw outer here ⟨frame, value⟩) (hitem : value.inside? position = some item) :
    Informed ev raw (outer ++ here) [] ⟨frame.child position value, item⟩ where
  first := by
    rw [Frame.positions, List.head?_append]
    exact congrArg (Option.or · _) h.first
  value := (Json.standing?_concat h.value position).trans hitem
  root := h.root
  parent := h.value.symm
  context := by
    rw [List.append_nil]
    exact h.context
  metadata := by
    have hposition : position ≠ .root := by
      rintro rfl
      cases hitem
    exact (if_neg hposition).symm

end

/-! ### Chains of calls -/

variable {ι : Type} [DecidableEq ι] (catalogue : Catalogue ι) (ev : Evaluator ι) (raw : Json)
  (source : Source)

/-- The calls that an evaluation can come to make. Overrides made at nodes above and at the node of
the call are kept apart, the outermost first. -/
inductive Reached : List (Overrides ι) → List (Overrides ι) → Call ι → Prop
  | root : Reached [] [] ⟨ev.rootFrame raw source, raw⟩
  | again {outer here : List (Overrides ι)} {frame : Frame ι} {value v : Json} {e : ι}
      {transform : Transform ι} {overrides : Overrides ι} :
      Reached outer here ⟨frame, value⟩ → frame.match? catalogue value = some (e, transform) →
        (transform frame.input).Asks v overrides →
          Reached outer (here ++ [overrides]) ⟨(frame.visit e).overridden overrides, v⟩
  | child {outer here : List (Overrides ι)} {call inner : Call ι} :
      Reached outer here call → Enters catalogue call inner → Reached (outer ++ here) [] inner

/-- Keeping the overrides leaves no call out. -/
theorem exists_reached_iff {call : Call ι} :
    (∃ outer here, Reached catalogue ev raw source outer here call) ↔
      Relation.ReflTransGen (Makes catalogue) ⟨ev.rootFrame raw source, raw⟩ call := by
  constructor
  · rintro ⟨outer, here, h⟩
    induction h with
    | root => exact .refl
    | again _ hmatch hasks ih => exact ih.tail (.again (.intro hmatch hasks))
    | child _ henters ih => exact ih.tail (.below henters)
  · intro h
    induction h with
    | refl => exact ⟨[], [], .root⟩
    | tail _ hmakes ih =>
        obtain ⟨outer, here, hreached⟩ := ih
        cases hmakes with
        | again hreenters =>
            obtain ⟨hmatch, hasks⟩ := hreenters
            exact ⟨outer, _, .again hreached hmatch hasks⟩
        | below henters => exact ⟨outer ++ here, [], .child hreached henters⟩

/-- The transforms that run in the evaluation have nothing evaluated but the value that they
matched. -/
def Rereads : Prop :=
  ∀ ⦃outer here call⦄, Reached catalogue ev raw source outer here call →
    ∀ ⦃e inner⦄, Reenters catalogue call e inner → inner.value = call.value

variable {catalogue ev raw source} {outer here : List (Overrides ι)}

theorem Informed.enters {call inner : Call ι} (hraw : raw.Distinct)
    (h : Informed ev raw outer here call) (henters : Enters catalogue call inner) :
    Informed ev raw (outer ++ here) [] inner := by
  cases henters with
  | item hmatch hitem => exact h.child hitem
  | member hmatch hmember =>
      have hvalue := hraw.standing? h.value
      exact h.child (Members.get?_of_mem hvalue.members hmember)

/-- In an evaluation whose transforms have only the value that they matched evaluated again,
whatever a call tells extensions about its surroundings is true.

The calls that are reached are all those that `evaluateNode` comes to make (`exists_reached_iff`):
it makes no others (`evaluateNode_rel`), what comes of it is made from what came of them
(`Invariant.of_result`), and it reports nothing but at one of them
(`Evaluator.exists_reached_of_mem_reported`). -/
theorem informed_of_reached (hraw : raw.Distinct) (hrereads : Rereads catalogue ev raw source)
    {call : Call ι} (h : Reached catalogue ev raw source outer here call) :
    Informed ev raw outer here call := by
  induction h with
  | root => exact informed_root
  | again hreached hmatch hasks ih =>
      obtain rfl := hrereads hreached (.intro hmatch hasks)
      exact ih.again _ _
  | child _ henters ih => exact ih.enters hraw henters

end Call

/-- The transforms of the extension have nothing evaluated but the value that they matched. -/
def Extension.Rereads {ι : Type} (e : Extension ι) : Prop :=
  ∀ value position ancestors context transform,
    e.applies value position ancestors context = some transform →
      ∀ input v overrides, (transform input).Asks v overrides → v = value

theorem Call.rereads_of_extensions {ι : Type} [DecidableEq ι] {catalogue : Catalogue ι}
    (h : ∀ e, (catalogue e).Rereads) (ev : Evaluator ι) (raw : Json) (source : Source) :
    Call.Rereads catalogue ev raw source := by
  intro outer here call _ e inner hreenters
  obtain ⟨hmatch, hasks⟩ := hreenters
  obtain ⟨-, -, -, -, happlies, -⟩ := match?_eq_some_iff.1 hmatch
  exact h e _ _ _ _ _ happlies _ _ _ hasks

/-- A directive that lays a profile over the context and tags its node, before the marking of
secrets. -/
def scoping : Catalogue Bool
  | true => .keyDirective "$scope" fun v _ =>
    .evaluate v
      { metadata := some ⟨[("scoped", .bool true)]⟩
        context := some ⟨[("profile", .string "inner")]⟩ }
  | false => .markSecrets

theorem rereads_scoping (e : Bool) : (scoping e).Rereads := by
  intro value position ancestors context transform happlies input v overrides hasks
  match e with
  | true =>
      obtain ⟨-, heq⟩ := Option.ite_none_right_eq_some.1 happlies
      obtain rfl := Option.some.inj heq
      exact (Program.asks_evaluate.1 hasks).1
  | false =>
      obtain ⟨-, heq⟩ := Option.ite_none_left_eq_some.1 happlies
      obtain rfl := Option.some.inj heq
      exact (Program.asks_evaluate.1 hasks).1

/-- An evaluator with a profile of its own. -/
def scopingEvaluator : Evaluator Bool where
  extensions := [true, false]
  metadata := ⟨[("layer", .bool true)]⟩
  context := ⟨[("profile", .string "outer"), ("region", .string "eu")]⟩

/-- A directive below an element of an array. -/
def scopedDocument : Json :=
  .object [("list", .array [.object [("$scope", .object [("x", .string "profile")])]])]

/-- Below the directive its profile is seen, and its tag is not. -/
theorem informed_of_reached_scoped :
    scopedDocument.Distinct ∧
    Call.Rereads scoping scopingEvaluator scopedDocument (.literal 0 .null) ∧
    ∃ outer here call,
      Call.Reached scoping scopingEvaluator scopedDocument (.literal 0 .null) outer here call ∧
      call.frame.positions = [.root, .key "list", .index 0, .key "$scope", .key "x"] ∧
      call.frame.context = ⟨[("profile", .string "inner"), ("region", .string "eu")]⟩ ∧
      call.frame.metadata = ⟨[(Metadata.fromSecrets, .bool true)]⟩ ∧
      Call.Informed scopingEvaluator scopedDocument outer here call := by
  have hraw : scopedDocument.Distinct := by decide
  have hrereads := Call.rereads_of_extensions rereads_scoping scopingEvaluator scopedDocument
    (.literal 0 .null)
  have hroot : Call.Reached scoping scopingEvaluator scopedDocument (.literal 0 .null) [] []
    ⟨scopingEvaluator.rootFrame scopedDocument (.literal 0 .null), scopedDocument⟩ := .root
  have hlist := (hroot.child (.member rfl List.mem_cons_self)).again rfl .here
  have helement := (hlist.child (@Call.Enters.item _ _ _ _ _ 0 _ rfl rfl)).again rfl .here
  have hscope := (helement.child (.member rfl List.mem_cons_self)).again rfl .here
  have hmarked := hscope.again rfl .here
  have hleaf := (hmarked.child (.member rfl List.mem_cons_self)).again rfl .here
  have hinformed := Call.informed_of_reached hraw hrereads hleaf
  exact ⟨hraw, hrereads, _, _, _, hleaf, rfl, rfl, rfl, hinformed⟩

end LayeredConfig
