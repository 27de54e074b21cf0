import LayeredConfig.Proofs.Evaluation.Calls

/-!
# What comes of an evaluation

A tree that comes of a call was made from the trees of the calls below it. A transform answers after
some of the evaluations that it asked for gave trees (`Program.Answers`), and a container is put
together from the trees of its children. `Call.Invariant` says of a relation between calls and trees
that each of these steps keeps it, and `Call.Invariant.of_result` that it then holds of every call
and the tree that comes of it.
-/

namespace LayeredConfig

/-! ### Answers -/

namespace Program

variable {ι α : Type}

/-- The program can answer so, once the evaluations that it asks for have given these trees, in
this order. Evaluations that fail give none. -/
inductive Answers : Program ι α → List Node → α → Prop
  | done {answer : α} : Answers (.done answer) [] answer
  | wait {n : Nat} {next : Program ι α} {trees : List Node} {answer : α} :
      Answers next trees answer → Answers (.wait n next) trees answer
  | report {event : Event} {next : Program ι α} {trees : List Node} {answer : α} :
      Answers next trees answer → Answers (.report event next) trees answer
  | given {v : Json} {overrides : Overrides ι} {next : Except ConfigError Node → Program ι α}
      {tree : Node} {trees : List Node} {answer : α} :
      Answers (next (.ok tree)) trees answer →
        Answers (.parse v overrides next) (tree :: trees) answer
  | failed {v : Json} {overrides : Overrides ι} {next : Except ConfigError Node → Program ι α}
      {e : ConfigError} {trees : List Node} {answer : α} :
      Answers (next (.error e)) trees answer → Answers (.parse v overrides next) trees answer

/-- A program that has a value evaluated answers with its tree. -/
theorem answers_evaluate {v : Json} {overrides : Overrides ι} {trees : List Node} {node : Node} :
    (evaluate v overrides).Answers trees node ↔ trees = [node] := by
  constructor
  · intro h
    cases h with
    | given hdone => cases hdone; rfl
    | failed hfail => exact nomatch hfail
  · rintro rfl
    exact .given .done

/-- An answer is given after evaluations that the program asked for. -/
theorem exists_answers {parse : Json → Overrides ι → Run Node} {p : Program ι α} {answer : α}
    (h : (p.run parse).result = .ok answer) :
    ∃ trees, p.Answers trees answer ∧
      ∀ tree ∈ trees, ∃ v overrides,
        p.Asks v overrides ∧ (parse v overrides).result = .ok tree := by
  induction p with
  | done a =>
      obtain rfl := Except.ok.inj h
      exact ⟨[], .done, nofun⟩
  | fail e => cases h
  | wait n next ih =>
      obtain ⟨-, -, hnext⟩ := Run.result_bind_eq_ok_iff.1 h
      obtain ⟨trees, hanswers, htrees⟩ := ih hnext
      refine ⟨trees, .wait hanswers, fun tree htree => ?_⟩
      obtain ⟨v, overrides, hasks, hok⟩ := htrees tree htree
      exact ⟨v, overrides, .wait hasks, hok⟩
  | report event next ih =>
      obtain ⟨-, -, hnext⟩ := Run.result_bind_eq_ok_iff.1 h
      obtain ⟨trees, hanswers, htrees⟩ := ih hnext
      refine ⟨trees, .report hanswers, fun tree htree => ?_⟩
      obtain ⟨v, overrides, hasks, hok⟩ := htrees tree htree
      exact ⟨v, overrides, .report hasks, hok⟩
  | parse w before next ih =>
      obtain ⟨outcome, hattempt, hnext⟩ := Run.result_bind_eq_ok_iff.1 h
      obtain ⟨trees, hanswers, htrees⟩ := ih outcome hnext
      have hlater : ∀ tree ∈ trees, ∃ v overrides,
          (Program.parse w before next).Asks v overrides ∧
            (parse v overrides).result = .ok tree := by
        intro tree htree
        obtain ⟨v, overrides, hasks, hok⟩ := htrees tree htree
        exact ⟨v, overrides, .later outcome hasks, hok⟩
      -- The evaluation asked for here gave a tree, or it failed and the program went on.
      cases outcome with
      | ok tree =>
          have hok := Run.result_attempt_eq_ok_ok_iff.1 hattempt
          exact ⟨tree :: trees, .given hanswers,
            List.forall_mem_cons.2 ⟨⟨w, before, .here, hok⟩, hlater⟩⟩
      | error e => exact ⟨trees, .failed hanswers, hlater⟩

end Program

/-! ### Children -/

theorem exists_of_mem_besideItems {f : Nat → Json → Run Node} {index : Nat} {items : List Json}
    {children : List Node} (h : (besideItems f index items).result = .ok children) {child : Node}
    (hchild : child ∈ children) :
    ∃ i item, items[i]? = some item ∧ (f (index + i) item).result = .ok child := by
  induction items generalizing index children with
  | nil =>
      obtain rfl := Except.ok.inj h
      cases hchild
  | cons first rest ih =>
      obtain ⟨node, others, hnode, hothers, rfl⟩ := Run.result_beside_eq_ok_iff.1 h
      rcases List.mem_cons.1 hchild with rfl | hchild
      · exact ⟨0, first, rfl, hnode⟩
      · obtain ⟨i, item, hitem, hok⟩ := ih hothers hchild
        refine ⟨i + 1, item, hitem, ?_⟩
        rwa [show index + (i + 1) = index + 1 + i by omega]

theorem exists_of_mem_besideMembers {f : String → Json → Run Node} {members : List (String × Json)}
    {children : List (String × Node)} (h : (besideMembers f members).result = .ok children)
    {entry : String × Node} (hentry : entry ∈ children) :
    ∃ v, (entry.1, v) ∈ members ∧ (f entry.1 v).result = .ok entry.2 := by
  induction members generalizing children with
  | nil =>
      obtain rfl := Except.ok.inj h
      cases hentry
  | cons first rest ih =>
      obtain ⟨key, value⟩ := first
      obtain ⟨pair, others, hpair, hothers, rfl⟩ := Run.result_beside_eq_ok_iff.1 h
      rcases List.mem_cons.1 hentry with rfl | hentry
      · obtain ⟨node, hnode, heq⟩ := Run.result_bind_eq_ok_iff.1 hpair
        obtain rfl : (key, node) = entry := Except.ok.inj heq
        exact ⟨value, List.mem_cons_self, hnode⟩
      · obtain ⟨v, hv, hok⟩ := ih hothers hentry
        exact ⟨v, List.mem_cons_of_mem _ hv, hok⟩

/-! ### Calls and their trees -/

namespace Call

variable {ι : Type} [DecidableEq ι] {catalogue : Catalogue ι} {P : Call ι → Node → Prop}

/-- A relation between calls and trees that every step of an evaluation keeps: it holds of a call
and the tree made there as soon as it holds of the trees that this one is made from. -/
structure Invariant (catalogue : Catalogue ι) (P : Call ι → Node → Prop) : Prop where
  leaf : ∀ frame value, frame.match? catalogue value = none → value.isPrimitive = true →
    P ⟨frame, value⟩ (.leaf ⟨[frame.source], value, frame.metadata⟩ value)
  array : ∀ frame items children, frame.match? catalogue (.array items) = none →
    (∀ child ∈ children, ∃ inner, Enters catalogue ⟨frame, .array items⟩ inner ∧ P inner child) →
      P ⟨frame, .array items⟩ (.array ⟨[frame.source], .array items, frame.metadata⟩ children)
  object : ∀ frame members children node, frame.match? catalogue (.object members) = none →
    (∀ entry ∈ children,
      ∃ inner, Enters catalogue ⟨frame, .object members⟩ inner ∧ P inner entry.2) →
    (ObjectStep.run frame.path ⟨[frame.source], .object members, frame.metadata⟩
      children).result = .ok node →
      P ⟨frame, .object members⟩ node
  again : ∀ frame value e transform trees node,
    frame.match? catalogue value = some (e, transform) →
    (transform frame.input).Answers trees node →
    (∀ tree ∈ trees, ∃ inner, Reenters catalogue ⟨frame, value⟩ e inner ∧ P inner tree) →
      P ⟨frame, value⟩ node

/-- What descending gives is made from the trees of the children. -/
theorem Invariant.of_result_descend (hP : Invariant catalogue P)
    {evaluate : Frame ι → Json → Run Node}
    {call : Call ι} {node : Node} (hnone : call.frame.match? catalogue call.value = none)
    (h : ∀ inner child, Enters catalogue call inner →
      (evaluate inner.frame inner.value).result = .ok child → P inner child)
    (hok : (descend evaluate call.frame call.value).result = .ok node) : P call node := by
  obtain ⟨frame, value⟩ := call
  cases value with
  | array items =>
      obtain ⟨children, hchildren, heq⟩ := Run.result_bind_eq_ok_iff.1 hok
      obtain rfl := Except.ok.inj heq
      refine hP.array frame items children hnone fun child hchild => ?_
      obtain ⟨i, item, hitem, hresult⟩ := exists_of_mem_besideItems hchildren hchild
      rw [Nat.zero_add] at hresult
      exact ⟨_, .item hnone hitem, h _ _ (.item hnone hitem) hresult⟩
  | object members =>
      obtain ⟨children, hchildren, hrun⟩ := Run.result_bind_eq_ok_iff.1 hok
      refine hP.object frame members children node hnone (fun entry hentry => ?_)
        (Run.result_ofLogged_eq_ok_iff.1 hrun)
      obtain ⟨v, hv, hresult⟩ := exists_of_mem_besideMembers hchildren hentry
      exact ⟨_, .member hnone hv, h _ _ (.member hnone hv) hresult⟩
  | _ =>
      obtain rfl := Except.ok.inj hok
      exact hP.leaf frame _ hnone rfl

/-- What every step keeps holds of every call and the tree that comes of it. -/
theorem Invariant.of_result (hP : Invariant catalogue P) {limit : Nat} (call : Call ι) {node : Node}
    (hok : (evaluateNode catalogue limit call.frame call.value).result = .ok node) :
    P call node := by
  induction limit generalizing call node with
  | zero => cases hok
  | succ n ih =>
      rw [evaluateNode] at hok
      cases hmatch : call.frame.match? catalogue call.value with
      | none =>
          rw [hmatch] at hok
          exact hP.of_result_descend hmatch (fun inner child _ => ih inner) hok
      | some found =>
          obtain ⟨e, transform⟩ := found
          rw [hmatch] at hok
          obtain ⟨-, -, hrun⟩ := Run.result_bind_eq_ok_iff.1 hok
          obtain ⟨trees, hanswers, htrees⟩ := Program.exists_answers hrun
          refine hP.again call.frame call.value e transform trees node hmatch hanswers
            fun tree htree => ?_
          obtain ⟨v, overrides, hasks, hresult⟩ := htrees tree htree
          exact ⟨_, .intro hmatch hasks, ih ⟨_, v⟩ hresult⟩

end Call

end LayeredConfig
