import LayeredConfig.Node.Filter
import LayeredConfig.Proofs.Evaluation.Forwarding
import LayeredConfig.Proofs.Evaluation.Marked
import LayeredConfig.Proofs.Filter.Screening

/-!
# The root of a marked layer

Marking lays metadata over every node below the root and leaves the root out, so that a filter on
the mark can be used on whatever the layer is merged into. It is tried before all directives, but
what they make of marked members comes after it: a member that is flattened into an object, or
merged under or over it, brings its mark along. So the root of a marked layer stays unmarked exactly
when its object takes none of its members in (`Evaluator.root_marked_iff`), and a layer whose root
does take one in can no longer be filtered out (`Evaluator.inlined_root_marked`).
-/

namespace LayeredConfig

/-- The object that the call evaluates does not keep all of its members: it is replaced by one of
them, or one is merged under or over the others. Their trees are those of at most `limit` nested
calls. -/
def Call.Absorbs {ι : Type} [DecidableEq ι] (catalogue : Catalogue ι) (limit : Nat)
    (call : Call ι) : Prop :=
  ∃ members children, call.value = .object members ∧
    (besideMembers
      (fun key => evaluateNode catalogue limit (call.frame.child (.key key) call.value))
      members).result = .ok children ∧
    ∃ entry ∈ children, ObjectStep.keeps entry.2.metadata = false

/-! ### Marking first -/

section

variable {ι : Type} [DecidableEq ι] {catalogue : Catalogue ι} {e : ι} {others : List ι}
  {mark : Metadata} (he : catalogue e = .markAll mark)
  (hothers : ∀ d ∈ others, (catalogue d).Programs (Program.Forwards mark))
include he hothers

omit [DecidableEq ι] in
theorem forwards_of_markAll :
    ∀ d ∈ e :: others, (catalogue d).Programs (Program.Forwards .empty) := by
  refine List.forall_mem_cons.2 ⟨he ▸ Extension.forwards_markAll mark, fun d hd => ?_⟩
  exact (hothers d hd).mono fun _ hp => hp.unmarked

/-- The tree of a child holds the mark. -/
theorem Call.Enters.holds_metadata {call inner : Call ι} {limit : Nat} {node : Node}
    (henters : Call.Enters catalogue call inner) (hext : call.frame.extensions = e :: others)
    (hok : (evaluateNode catalogue limit inner.frame inner.value).result = .ok node) {key : String}
    (hkey : mark.Holds key) : node.metadata.Holds key := by
  have hinner : inner.frame.extensions = e :: others := henters.extensions_eq.trans hext
  have hmatch : inner.frame.match? catalogue inner.value =
      some (e, Extension.reparse inner.value mark) := by
    refine match?_eq_some_iff.2 ⟨[], others, hinner, ?_, ?_, nofun⟩
    · cases henters <;> exact nofun
    · rw [he]
      cases henters <;> rfl
  cases limit with
  | zero => cases hok
  | succ n =>
      rw [result_evaluateNode_of_reparse hmatch] at hok
      refine (Call.invariant_holds_metadata key).of_result
        ⟨(inner.frame.visit e).overridden { metadata := mark }, inner.value⟩ hok ?_ ?_
      · change ∀ d ∈ inner.frame.extensions, _
        rw [hinner]
        exact forwards_of_markAll he hothers
      · exact Metadata.holds_extended.2 (.inr hkey)

/-- Along a chain at the root nothing is marked. -/
theorem Call.Chain.unmarked {first last : Call ι} {used : List ι}
    (hchain : Call.Chain catalogue first used last) (hroot : first.frame.position = .root)
    (hext : first.frame.extensions = e :: others)
    (hfirst : ∀ key, mark.Holds key → ¬ first.frame.metadata.Holds key) :
    last.frame.position = .root ∧ last.frame.extensions = e :: others ∧
      ∀ key, mark.Holds key → ¬ last.frame.metadata.Holds key := by
  induction hchain with
  | nil => exact ⟨hroot, hext, hfirst⟩
  | @again used call inner d _ hreenters ih =>
      obtain ⟨hposition, hlist, hunmarked⟩ := ih
      -- The marking does not apply at the root, so it is another extension that matched here.
      have hd : d ∈ others := by
        have hmem := hreenters.mem_extensions
        rw [hlist] at hmem
        refine (List.mem_cons.1 hmem).resolve_left fun heq => ?_
        obtain @⟨frame, value, v, _, transform, overrides, hmatch, -⟩ := hreenters
        obtain ⟨-, -, -, -, happlies, -⟩ := match?_eq_some_iff.1 hmatch
        rw [heq, he] at happlies
        exact (Option.ite_none_left_eq_some.1 happlies).1 hposition
      have hforwards := hothers d hd
      exact ⟨hreenters.position_eq.trans hposition, (hreenters.extensions_eq hforwards).trans hlist,
        fun key hkey => hreenters.not_holds_metadata hforwards hkey (hunmarked key hkey)⟩

/-- Where no extension matches, an unmarked frame gives a marked tree exactly when the object there
takes a member in. -/
theorem holds_metadata_descend_iff {call : Call ι} {n : Nat} {tree : Node}
    (hext : call.frame.extensions = e :: others)
    (hnone : call.frame.match? catalogue call.value = none)
    (hok : (descend (evaluateNode catalogue n) call.frame call.value).result = .ok tree)
    {key : String} (hkey : mark.Holds key) (hplain : key ∉ Metadata.instructions)
    (hcall : ¬ call.frame.metadata.Holds key) :
    tree.metadata.Holds key ↔ call.Absorbs catalogue n := by
  obtain ⟨frame, value⟩ := call
  cases value with
  | array items =>
      obtain ⟨children, -, heq⟩ := Run.result_bind_eq_ok_iff.1 hok
      obtain rfl := Except.ok.inj heq
      exact iff_of_false hcall fun ⟨members, children, hvalue, _⟩ => nomatch hvalue
  | object members =>
      obtain ⟨children, hchildren, hrun⟩ := Run.result_bind_eq_ok_iff.1 hok
      have hmarked : ∀ entry ∈ children, entry.2.metadata.Holds key := by
        intro entry hentry
        obtain ⟨v, hv, hresult⟩ := exists_of_mem_besideMembers hchildren hentry
        exact Call.Enters.holds_metadata he hothers (.member hnone hv) hext hresult hkey
      rw [ObjectStep.holds_metadata_iff_of_members hplain hmarked
        (Run.result_ofLogged_eq_ok_iff.1 hrun), or_iff_right hcall]
      constructor
      · exact fun h => ⟨members, children, rfl, hchildren, h⟩
      · rintro ⟨members', children', heq, hchildren', h⟩
        obtain rfl := Json.object.inj heq
        rw [hchildren] at hchildren'
        obtain rfl := Except.ok.inj hchildren'
        exact h
  | _ =>
      obtain rfl := Except.ok.inj hok
      exact iff_of_false hcall fun ⟨members, children, hvalue, _⟩ => nomatch hvalue

end

/-- A filter on a mark: the node holds no key of it. -/
def Node.unmarked (mark : Metadata) (n : Node) : Bool :=
  decide (∀ key ∈ mark.entries.keys, ¬ n.metadata.Holds key)

theorem Node.unmarked_iff {mark : Metadata} {n : Node} :
    n.unmarked mark = true ↔ ∀ key, mark.Holds key → ¬ n.metadata.Holds key :=
  decide_eq_true_iff

namespace Evaluator

/-- The root of a marked layer, where directives follow that hand on what one of their evaluations
gave. Its tree is put together at the end of a chain of calls at the root, and it holds keys of the
mark exactly when the object there takes one of its members in. This is also what decides whether a
filter on the mark can be used on a tree that the layer is merged into. -/
theorem root_marked_iff {ι : Type} [DecidableEq ι] {catalogue : Catalogue ι} {e : ι}
    {others : List ι}
    {mark : Metadata} (he : catalogue e = .markAll mark)
    (hothers : ∀ d ∈ others, (catalogue d).Programs (Program.Forwards mark))
    (hmark : ∀ key, mark.Holds key → key ∉ Metadata.instructions) {ev : Evaluator ι}
    (hext : ev.extensions = e :: others) (hev : ∀ key, mark.Holds key → ¬ ev.metadata.Holds key)
    {raw : Json} {source : Source} {limit : Nat} {tree : Node}
    (hok : (ev.evaluateWithin catalogue limit raw source).result = .ok tree) :
    ∃ used last n, Call.Chain catalogue ⟨ev.rootFrame raw source, raw⟩ used last ∧
      last.frame.match? catalogue last.value = none ∧
      (descend (evaluateNode catalogue n) last.frame last.value).result = .ok tree ∧
      (∀ key, mark.Holds key → (tree.metadata.Holds key ↔ last.Absorbs catalogue n)) ∧
      ((∃ key, mark.Holds key) → ∀ base : Node, base.unmarked mark = true →
        ((∃ kept, (base.merge tree).filterWhere (Node.unmarked mark) = .ok kept) ↔
          ¬ last.Absorbs catalogue n)) := by
  let root : Call ι := ⟨ev.rootFrame raw source, raw⟩
  have hforwards : ∀ d ∈ root.frame.extensions,
      (catalogue d).Programs (Program.Forwards .empty) := by
    change ∀ d ∈ ev.extensions, _
    rw [hext]
    exact forwards_of_markAll he hothers
  obtain ⟨used, last, n, hchain, hnone, hlast⟩ := root.exists_descend hforwards hok
  obtain ⟨-, hlist, hunmarked⟩ := hchain.unmarked he hothers rfl hext hev
  have hmarked : ∀ key, mark.Holds key → (tree.metadata.Holds key ↔ last.Absorbs catalogue n) :=
    fun key hkey => holds_metadata_descend_iff he hothers hlist hnone hlast hkey (hmark key hkey)
      (hunmarked key hkey)
  refine ⟨used, last, n, hchain, hnone, hlast, hmarked, ?_⟩
  rintro ⟨key, hkey⟩ base hbase
  have hbase := Node.unmarked_iff.1 hbase
  rw [Node.filterWhere_isOk_iff, Node.unmarked_iff]
  constructor
  · intro hmerged habsorbs
    have htree := (hmarked key hkey).2 habsorbs
    exact hmerged key hkey (Node.holds_metadata_merge.2 (.inr htree))
  · intro hkept other hother hmerged
    rcases Node.holds_metadata_merge.1 hmerged with hheld | htree
    · exact hbase other hother hheld
    · exact hkept ((hmarked other hother).1 htree)

/-- The marking of secrets before a directive that has its value replace the object around it. -/
def inlining : Catalogue Bool
  | true => .markSecrets
  | false => .keyDirective "$inline" fun v _ =>
    .evaluate v { metadata := some ⟨[(Metadata.shouldFlatten, .bool true)]⟩ }

/-- The mark of secrets. -/
def secretsMark : Metadata := Metadata.empty.set Metadata.fromSecrets (.bool true)

theorem forwards_inlining : (inlining false).Programs (Program.Forwards secretsMark) := by
  refine Extension.programs_keyDirective fun v _ => Program.forwards_evaluate v fun key hkey => ?_
  obtain rfl := List.mem_singleton.1 hkey
  decide

theorem secretsMark_not_mem_instructions (key : String) (hkey : secretsMark.Holds key) :
    key ∉ Metadata.instructions := by
  obtain rfl := List.mem_singleton.1 hkey
  decide

/-- A layer without secrets. -/
def publicLayer : Node := .literal (.literal 0 .null) .empty (.object [("port", .ofInt 1)])

/-- Below the root the directive does no harm. -/
theorem root_marked_iff_inlining :
    inlining true = .markAll secretsMark ∧
    (∀ d ∈ [false], (inlining d).Programs (Program.Forwards secretsMark)) ∧
    (∀ key, secretsMark.Holds key → key ∉ Metadata.instructions) ∧
    ∃ tree, ((Evaluator.mk [true, false] .empty .empty).evaluateWithin inlining 9
        (.object [("db", .object [("$inline", .object [("a", .ofInt 1)])])])
        (.literal 1 .null)).result = .ok tree ∧
      ¬ tree.metadata.Holds Metadata.fromSecrets ∧
      ∃ kept, (publicLayer.merge tree).filterWhere (Node.unmarked secretsMark) = .ok kept := by
  have hothers : ∀ d ∈ [false], (inlining d).Programs (Program.Forwards secretsMark) :=
    List.forall_mem_singleton.2 forwards_inlining
  obtain ⟨tree, hok, hroot⟩ : ∃ tree,
      ((Evaluator.mk [true, false] .empty .empty).evaluateWithin inlining 9
        (.object [("db", .object [("$inline", .object [("a", .ofInt 1)])])])
        (.literal 1 .null)).result = .ok tree ∧ ¬ tree.metadata.Holds Metadata.fromSecrets :=
    ⟨_, rfl, by decide⟩
  obtain ⟨used, last, n, -, -, -, hmarked, hfilter⟩ := root_marked_iff (e := true) rfl hothers
    secretsMark_not_mem_instructions rfl (fun key _ => Metadata.not_holds_empty key) hok
  have hheld : secretsMark.Holds Metadata.fromSecrets := by decide
  have hkept : ¬ last.Absorbs inlining n := fun h => hroot ((hmarked _ hheld).2 h)
  refine ⟨rfl, hothers, secretsMark_not_mem_instructions, tree, hok, hroot, ?_⟩
  exact (hfilter ⟨_, hheld⟩ publicLayer (by decide)).2 hkept

/-- At the root it brings the mark to the root, and nothing can be filtered out of what the layer is
merged into. -/
theorem inlined_root_marked :
    inlining true = .markAll secretsMark ∧
    (∀ d ∈ [false], (inlining d).Programs (Program.Forwards secretsMark)) ∧
    (∀ key, secretsMark.Holds key → key ∉ Metadata.instructions) ∧
    ∃ tree, ((Evaluator.mk [true, false] .empty .empty).evaluateWithin inlining 9
        (.object [("$inline", .object [("a", .ofInt 1)])]) (.literal 1 .null)).result = .ok tree ∧
      tree.metadata.Holds Metadata.fromSecrets ∧
      publicLayer.notFromSecrets = true ∧
      (publicLayer.merge tree).filterWhere Node.notFromSecrets =
        .error (.internal "clone_where cannot filter out the node it was called on") :=
  ⟨rfl, List.forall_mem_singleton.2 forwards_inlining, secretsMark_not_mem_instructions, _, rfl,
    by decide, by decide, rfl⟩

end Evaluator

end LayeredConfig
