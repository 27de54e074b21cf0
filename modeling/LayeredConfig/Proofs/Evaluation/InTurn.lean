import LayeredConfig.Proofs.Evaluation.Calls

/-!
# Members one after the other

The evaluator without rounds: the members of a container are evaluated one at a time in their
order, up to the first that gives no tree, and an object is put together when all of its members
are there. Events are left out. This is what evaluation comes to when no transform waits
(`atOnce_evaluateNode`).
-/

namespace LayeredConfig

variable {ι α β : Type}

/-! ### The evaluator without rounds -/

/-- Makes a failure a value to go on with. Nesting too deep is no failure. -/
def attempted : Except Stop α → Except Stop (Except ConfigError α)
  | .ok a => .ok (.ok a)
  | .error (.failed e) => .ok (.error e)
  | .error .tooDeep => .error .tooDeep

/-- What a program comes to, `parse` being what evaluations come to. -/
def Program.inTurn (parse : Json → Overrides ι → Except Stop Node) : Program ι α → Except Stop α
  | .done a => .ok a
  | .fail e => .error (.failed e)
  | .wait _ next => next.inTurn parse
  | .report _ next => next.inTurn parse
  | .parse v overrides next => do
    let result ← attempted (parse v overrides)
    (next result).inTurn parse

/-- Elements one after the other, the first of which stands at `index`. -/
def itemsInTurn (f : Nat → Json → Except Stop Node) (index : Nat) :
    List Json → Except Stop (List Node)
  | [] => .ok []
  | item :: rest => do
    let node ← f index item
    let others ← itemsInTurn f (index + 1) rest
    .ok (node :: others)

/-- Members one after the other; each node is kept with its key. -/
def membersInTurn (f : String → Json → Except Stop Node) :
    List (String × Json) → Except Stop (List (String × Node))
  | [] => .ok []
  | (key, value) :: rest => do
    let node ← f key value
    let others ← membersInTurn f rest
    .ok ((key, node) :: others)

/-- The tree of a value that no extension takes over, its children being evaluated by `call`. -/
def descendInTurn (call : Frame ι → Json → Except Stop Node) (frame : Frame ι) (value : Json) :
    Except Stop Node :=
  let label : Label := ⟨[frame.source], value, frame.metadata⟩
  match value with
  | .array items => do
    let children ← itemsInTurn (fun i => call (frame.child (.index i) value)) 0 items
    .ok (.array label children)
  | .object members => do
    let children ← membersInTurn (fun key => call (frame.child (.key key) value)) members
    (ObjectStep.run frame.path label children).result.mapError .failed
  | value => .ok (.leaf label value)

/-- What the evaluation of a value comes to, in at most `limit` nested calls. -/
def nodeInTurn [DecidableEq ι] (catalogue : Catalogue ι) :
    (limit : Nat) → Frame ι → Json → Except Stop Node
  | 0, _, _ => .error .tooDeep
  | limit + 1, frame, value =>
    match frame.match? catalogue value with
    | some (e, transform) =>
      (transform frame.input).inTurn fun v overrides =>
        nodeInTurn catalogue limit ((frame.visit e).overridden overrides) v
    | none => descendInTurn (nodeInTurn catalogue limit) frame value

/-- What the evaluation of a value that came from a source comes to. -/
def Evaluator.evaluateInTurn [DecidableEq ι] (catalogue : Catalogue ι) (limit : Nat)
    (ev : Evaluator ι) (raw : Json) (source : Source) : Except Stop Node :=
  nodeInTurn catalogue limit (ev.rootFrame raw source) raw

/-! ### Runs that end in their first round -/

namespace Run

/-- The run ends in its first round, and this is what comes of it. -/
structure AtOnce (x : Run α) (r : Except Stop α) : Prop where
  rounds : x.rounds = 0
  result : x.result = r

theorem AtOnce.bind {x : Run α} {r : Except Stop α} {f : α → Run β} {g : α → Except Stop β}
    (hx : x.AtOnce r) (hf : ∀ a, (f a).AtOnce (g a)) : (x >>= f).AtOnce (r >>= g) := by
  obtain ⟨hrounds, rfl⟩ := hx
  cases hresult : x.result with
  | ok a =>
      refine ⟨?_, ?_⟩
      · rw [rounds_bind_of_ok hresult, hrounds, (hf a).rounds]
      · rw [result_bind, hresult]
        exact (hf a).result
  | error s =>
      refine ⟨?_, ?_⟩
      · rw [rounds_bind_of_error hresult, hrounds]
      · rw [result_bind, hresult]
        rfl

theorem AtOnce.attempt {x : Run α} {r : Except Stop α} (hx : x.AtOnce r) :
    x.attempt.AtOnce (attempted r) := by
  obtain ⟨hrounds, rfl⟩ := hx
  refine ⟨hrounds, ?_⟩
  rw [result_attempt]
  cases x.result with
  | ok a => rfl
  | error s => cases s <;> rfl

/-- Of runs that end in their first round, the first that gives nothing counts. -/
theorem AtOnce.beside {x : Run α} {r : Except Stop α} {others : Unit → Run (List α)}
    {rest : Except Stop (List α)} (hx : x.AtOnce r) (hothers : (others ()).AtOnce rest) :
    (x.beside others).AtOnce (do let a ← r; let as ← rest; .ok (a :: as)) := by
  obtain ⟨hrounds, rfl⟩ := hx
  obtain ⟨hrounds', rfl⟩ := hothers
  have hcombine := outcome_beside x others
  suffices h : (combine x (others ())).AtOnce
      (do let a ← x.result; let as ← (others ()).result; .ok (a :: as)) from
    ⟨(congrArg Prod.fst hcombine).trans h.rounds, (congrArg Prod.snd hcombine).trans h.result⟩
  -- With no rounds between the two, the first in order is the earliest.
  unfold combine
  cases x.result with
  | ok a => cases (others ()).result <;> constructor <;> simp [hrounds, hrounds'] <;> rfl
  | error s => cases (others ()).result <;> constructor <;> simp [hrounds, hrounds'] <;> rfl

end Run

/-! ### Without waiting -/

/-- The program never waits. -/
def Program.NeverWaits : Program ι α → Prop
  | .done _ => True
  | .fail _ => True
  | .wait n next => n = 0 ∧ next.NeverWaits
  | .report _ next => next.NeverWaits
  | .parse _ _ next => ∀ result, (next result).NeverWaits

theorem Program.atOnce_run {parse : Json → Overrides ι → Run Node}
    {parseInTurn : Json → Overrides ι → Except Stop Node} {p : Program ι α} (hp : p.NeverWaits)
    (h : ∀ v overrides, (parse v overrides).AtOnce (parseInTurn v overrides)) :
    (p.run parse).AtOnce (p.inTurn parseInTurn) := by
  induction p with
  | done a => exact ⟨rfl, rfl⟩
  | fail e => exact ⟨rfl, rfl⟩
  | wait n next ih =>
      obtain ⟨rfl, hnext⟩ := hp
      exact Run.AtOnce.bind (r := .ok ()) ⟨rfl, rfl⟩ fun _ => ih hnext
  | report event next ih => exact Run.AtOnce.bind (r := .ok ()) ⟨rfl, rfl⟩ fun _ => ih hp
  | parse v overrides next ih =>
      exact (h v overrides).attempt.bind fun result => ih result (hp result)

theorem atOnce_besideItems {f : Nat → Json → Run Node} {g : Nat → Json → Except Stop Node}
    (h : ∀ index item, (f index item).AtOnce (g index item)) (index : Nat) (items : List Json) :
    (besideItems f index items).AtOnce (itemsInTurn g index items) := by
  induction items generalizing index with
  | nil => exact ⟨rfl, rfl⟩
  | cons item rest ih => exact (h index item).beside (ih (index + 1))

theorem atOnce_besideMembers {f : String → Json → Run Node} {g : String → Json → Except Stop Node}
    (h : ∀ key value, (f key value).AtOnce (g key value)) (members : List (String × Json)) :
    (besideMembers f members).AtOnce (membersInTurn g members) := by
  induction members with
  | nil => exact ⟨rfl, rfl⟩
  | cons entry rest ih =>
      obtain ⟨key, value⟩ := entry
      have hkeyed : (f key value >>= fun node => pure (key, node)).AtOnce
          (g key value >>= fun node => .ok (key, node)) :=
        (h key value).bind fun node => ⟨rfl, rfl⟩
      have hbeside : (Run.beside (f key value >>= fun node => pure (key, node)) fun _ =>
          besideMembers f rest).AtOnce _ := hkeyed.beside ih
      rw [besideMembers, membersInTurn]
      cases hnode : g key value <;> rwa [hnode] at hbeside

theorem atOnce_descend {call : Frame ι → Json → Run Node}
    {callInTurn : Frame ι → Json → Except Stop Node}
    (h : ∀ frame value, (call frame value).AtOnce (callInTurn frame value)) (frame : Frame ι)
    (value : Json) : (descend call frame value).AtOnce (descendInTurn callInTurn frame value) := by
  cases value with
  | array items => exact (atOnce_besideItems (fun index => h _) 0 items).bind fun _ => ⟨rfl, rfl⟩
  | object members =>
      exact (atOnce_besideMembers (fun key => h _) members).bind fun _ => ⟨rfl, rfl⟩
  | _ => exact ⟨rfl, rfl⟩

/-- Without waiting, an evaluation comes to what it comes to with members one after the other. -/
theorem atOnce_evaluateNode [DecidableEq ι] {catalogue : Catalogue ι}
    (hprograms : catalogue.Programs Program.NeverWaits) (limit : Nat) (frame : Frame ι)
    (value : Json) :
    (evaluateNode catalogue limit frame value).AtOnce
      (nodeInTurn catalogue limit frame value) := by
  induction limit generalizing frame value with
  | zero => exact ⟨rfl, rfl⟩
  | succ n ih =>
      rw [evaluateNode, nodeInTurn]
      cases hmatch : frame.match? catalogue value with
      | none => exact atOnce_descend ih frame value
      | some found =>
          obtain ⟨e, transform⟩ := found
          have hnever := (hprograms e).of_match? hmatch
          exact Run.AtOnce.bind (x := Run.report _) (r := .ok ()) ⟨rfl, rfl⟩ fun _ =>
            Program.atOnce_run hnever fun v overrides => ih _ v

end LayeredConfig
