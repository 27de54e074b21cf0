import LayeredConfig.Evaluation.Evaluate
import LayeredConfig.Extension.Builtin

/-!
# Calls of the evaluator

One call evaluates one value under one frame. Which extension matches there is told by the active
list and by those that have matched before (`match?_eq_some_iff`). A call makes further calls in
two ways: the transform of the extension that matched has values evaluated again at the same node
(`Call.Reenters`), or, where no extension matched, the children of the value are evaluated
(`Call.Enters`). What a transform asks for depends on what came of its earlier calls, so
`Program.Asks` takes in every value that some outcomes would make it ask for.

That a call makes no others is `evaluateNode_rel`: two evaluations come out alike, in any sense that
`Run.Respected` describes, as soon as the calls they make do.
-/

namespace LayeredConfig

/-! ### Which extension matches -/

section

variable {ι : Type} [DecidableEq ι] {catalogue : Catalogue ι}

/-- The handles are two extensions: they differ, and no identity is declared by both. -/
def Distinguished (catalogue : Catalogue ι) (d e : ι) : Prop :=
  d ≠ e ∧ ∀ name, ¬ ((catalogue d).identity = some name ∧ (catalogue e).identity = some name)

theorem sameExtension_eq_false_iff {d e : ι} :
    Frame.sameExtension catalogue d e = false ↔ Distinguished catalogue d e := by
  unfold Frame.sameExtension Distinguished
  cases (catalogue d).identity with
  | none => simp
  | some a =>
      cases (catalogue e).identity with
      | none => simp
      | some b =>
          simp only [Bool.or_eq_false_iff, beq_eq_false_iff_ne, Option.some.injEq, not_and,
            forall_eq', ne_eq]
          exact and_congr_right fun _ => not_congr eq_comm

theorem hasVisited_eq_false_iff {frame : Frame ι} {e : ι} :
    frame.hasVisited catalogue e = false ↔
      ∀ seen ∈ frame.visited, Distinguished catalogue seen e := by
  simp [Frame.hasVisited, sameExtension_eq_false_iff]

/-- The extension that matches is the first of the active list that has not matched yet and
applies. -/
theorem match?_eq_some_iff {frame : Frame ι} {value : Json} {e : ι} {transform : Transform ι} :
    frame.match? catalogue value = some (e, transform) ↔
      ∃ before after, frame.extensions = before ++ e :: after ∧
        (∀ seen ∈ frame.visited, Distinguished catalogue seen e) ∧
        (catalogue e).applies value frame.position frame.ancestors frame.context = some transform ∧
        ∀ d ∈ before, (∃ seen ∈ frame.visited, ¬ Distinguished catalogue seen d) ∨
          (catalogue d).applies value frame.position frame.ancestors frame.context = none := by
  have hvisited : ∀ d : ι, (!frame.hasVisited catalogue d) = true ↔
      ∀ seen ∈ frame.visited, Distinguished catalogue seen d := fun d => by
    rw [Bool.not_eq_true', hasVisited_eq_false_iff]
  -- The guard in front of the search becomes a condition of the search.
  rw [Frame.match?, ← List.head?_filterMap, List.filterMap_filter, List.head?_filterMap,
    List.findSome?_eq_some_iff]
  constructor
  · rintro ⟨before, d, after, hlist, hd, hbefore⟩
    obtain ⟨hunused, hmap⟩ := (Option.ite_none_right_eq_some).1 hd
    obtain ⟨t, happlies, heq⟩ := Option.map_eq_some_iff.1 hmap
    cases heq
    refine ⟨before, after, hlist, (hvisited e).1 hunused, happlies, fun c hc => ?_⟩
    by_cases hfresh : ∀ seen ∈ frame.visited, Distinguished catalogue seen c
    · have hnone := hbefore c hc
      rw [if_pos ((hvisited c).2 hfresh), Option.map_eq_none_iff] at hnone
      exact .inr hnone
    · exact .inl (by simpa using hfresh)
  · rintro ⟨before, after, hlist, hunused, happlies, hbefore⟩
    refine ⟨before, e, after, hlist, ?_, fun c hc => ?_⟩
    · rw [if_pos ((hvisited e).2 hunused), happlies]
      rfl
    · rcases hbefore c hc with ⟨seen, hseen, hsame⟩ | hnone
      · exact if_neg fun h => hsame ((hvisited c).1 h seen hseen)
      · rw [hnone]
        exact ite_self _

theorem mem_extensions_of_match? {frame : Frame ι} {value : Json} {e : ι} {transform : Transform ι}
    (h : frame.match? catalogue value = some (e, transform)) : e ∈ frame.extensions := by
  obtain ⟨before, after, hlist, -⟩ := match?_eq_some_iff.1 h
  rw [hlist]
  exact List.mem_append_cons_self

/-- The programs that transforms of the extension start all have a property. -/
def Extension.Programs (e : Extension ι) (P : Program ι Node → Prop) : Prop :=
  ∀ value position ancestors context transform,
    e.applies value position ancestors context = some transform → ∀ input, P (transform input)

omit [DecidableEq ι] in
theorem Extension.Programs.mono {P Q : Program ι Node → Prop} {e : Extension ι} (h : e.Programs P)
    (hPQ : ∀ p, P p → Q p) : e.Programs Q :=
  fun _ _ _ _ _ happlies input => hPQ _ (h _ _ _ _ _ happlies input)

omit [DecidableEq ι] in
theorem Extension.programs_keyDirective {P : Program ι Node → Prop} {name : String}
    {handler : Json → Transform ι} (h : ∀ value input, P (handler value input)) :
    (keyDirective name handler).Programs P := by
  intro value position ancestors context transform happlies input
  obtain ⟨-, heq⟩ := Option.ite_none_right_eq_some.1 happlies
  obtain rfl := Option.some.inj heq
  exact h value input

/-- The programs that transforms of the catalogue start all have a property. -/
def Catalogue.Programs (catalogue : Catalogue ι) (P : Program ι Node → Prop) : Prop :=
  ∀ e, (catalogue e).Programs P

theorem Extension.Programs.of_match? {P : Program ι Node → Prop} {e : ι}
    (h : (catalogue e).Programs P) {frame : Frame ι} {value : Json} {transform : Transform ι}
    (hmatch : frame.match? catalogue value = some (e, transform)) : P (transform frame.input) := by
  obtain ⟨-, -, -, -, happlies, -⟩ := match?_eq_some_iff.1 hmatch
  exact h _ _ _ _ transform happlies frame.input

end

/-! ### What a program asks for -/

namespace Program

variable {ι α : Type}

/-- Some outcomes of its evaluations lead the program to have a value evaluated. -/
inductive Asks : Program ι α → Json → Overrides ι → Prop
  | here {v : Json} {overrides : Overrides ι} {next : Except ConfigError Node → Program ι α} :
      Asks (.parse v overrides next) v overrides
  | wait {n : Nat} {next : Program ι α} {v : Json} {overrides : Overrides ι} :
      Asks next v overrides → Asks (.wait n next) v overrides
  | report {event : Event} {next : Program ι α} {v : Json} {overrides : Overrides ι} :
      Asks next v overrides → Asks (.report event next) v overrides
  | later {w : Json} {before : Overrides ι} {next : Except ConfigError Node → Program ι α}
      {v : Json} {overrides : Overrides ι} (result : Except ConfigError Node) :
      Asks (next result) v overrides → Asks (.parse w before next) v overrides

theorem not_asks_ofExcept {v : Json} {overrides : Overrides ι} (result : Except ConfigError α) :
    ¬ (ofExcept result).Asks v overrides := by
  cases result <;> exact nofun

/-- A program that has a value evaluated asks for nothing else. -/
theorem asks_evaluate {v w : Json} {overrides others : Overrides ι} :
    (evaluate v overrides).Asks w others ↔ w = v ∧ others = overrides := by
  constructor
  · intro h
    cases h with
    | here => exact ⟨rfl, rfl⟩
    | later result hlater => exact absurd hlater (not_asks_ofExcept result)
  · rintro ⟨rfl, rfl⟩
    exact .here

end Program

/-! ### Calls that a call makes -/

/-- One call of the evaluator: a value and the frame that it is evaluated under. -/
structure Call (ι : Type) where
  frame : Frame ι
  value : Json

namespace Call

variable {ι : Type} [DecidableEq ι] (catalogue : Catalogue ι)

/-- The transform of `e`, which matches at the first call, may make the second one. -/
inductive Reenters : Call ι → ι → Call ι → Prop
  | intro {frame : Frame ι} {value v : Json} {e : ι} {transform : Transform ι}
      {overrides : Overrides ι} :
      frame.match? catalogue value = some (e, transform) →
        (transform frame.input).Asks v overrides →
          Reenters ⟨frame, value⟩ e ⟨(frame.visit e).overridden overrides, v⟩

/-- No extension matches at the first call, and the second one evaluates a child of its value. -/
inductive Enters : Call ι → Call ι → Prop
  | item {frame : Frame ι} {items : List Json} {index : Nat} {item : Json} :
      frame.match? catalogue (.array items) = none → items[index]? = some item →
        Enters ⟨frame, .array items⟩ ⟨frame.child (.index index) (.array items), item⟩
  | member {frame : Frame ι} {members : List (String × Json)} {key : String} {v : Json} :
      frame.match? catalogue (.object members) = none → (key, v) ∈ members →
        Enters ⟨frame, .object members⟩ ⟨frame.child (.key key) (.object members), v⟩

/-- The first call makes the second one, or could make it had its earlier calls come out
otherwise. -/
inductive Makes : Call ι → Call ι → Prop
  | again {call inner : Call ι} {e : ι} : Reenters catalogue call e inner → Makes call inner
  | below {call inner : Call ι} : Enters catalogue call inner → Makes call inner

variable {catalogue}

theorem Enters.extensions_eq {call inner : Call ι} (h : Enters catalogue call inner) :
    inner.frame.extensions = call.frame.extensions := by
  cases h <;> rfl

theorem Enters.metadata_eq {call inner : Call ι} (h : Enters catalogue call inner) :
    inner.frame.metadata = .empty := by
  cases h <;> rfl

end Call

/-! ### Extensions that come to be tried -/

section

variable {ι : Type} [DecidableEq ι] {catalogue : Catalogue ι} {extensions : List ι}

/-- The extensions that an evaluation can come to try: those that it starts with, and those of a
list that a transform of one of them puts in their place. -/
inductive Active (catalogue : Catalogue ι) (extensions : List ι) : ι → Prop
  | listed {e : ι} : e ∈ extensions → Active catalogue extensions e
  | handed {d e : ι} {value v : Json} {position : Position} {ancestors : List Position}
      {context : Context} {transform : Transform ι} {input : Input ι} {overrides : Overrides ι}
      {others : List ι} :
      Active catalogue extensions d →
        (catalogue d).applies value position ancestors context = some transform →
          (transform input).Asks v overrides → overrides.extensions = some others → e ∈ others →
            Active catalogue extensions e

theorem Call.Enters.active {call inner : Call ι} (h : Call.Enters catalogue call inner)
    (hactive : ∀ e ∈ call.frame.extensions, Active catalogue extensions e) :
    ∀ e ∈ inner.frame.extensions, Active catalogue extensions e := by
  rwa [h.extensions_eq]

theorem Call.Reenters.active {call inner : Call ι} {d : ι}
    (h : Call.Reenters catalogue call d inner)
    (hactive : ∀ e ∈ call.frame.extensions, Active catalogue extensions e) :
    ∀ e ∈ inner.frame.extensions, Active catalogue extensions e := by
  obtain @⟨frame, value, v, _, _, overrides, hmatch, hasks⟩ := h
  obtain ⟨-, -, -, -, happlies, -⟩ := match?_eq_some_iff.1 hmatch
  intro e he
  rw [Frame.overridden] at he
  cases hothers : overrides.extensions with
  | none =>
      rw [hothers] at he
      exact hactive e he
  | some others =>
      rw [hothers] at he
      have hd := hactive d (mem_extensions_of_match? hmatch)
      exact .handed hd happlies hasks hothers he

end

/-! ### Runs that come out alike -/

namespace Run

/-- A way in which runs come out alike that putting runs together respects. -/
structure Respected (R : (α : Type) → Run α → Run α → Prop) : Prop where
  refl : ∀ {α : Type} {x : Run α}, x.result ≠ .error .tooDeep → R α x x
  bind : ∀ {α β : Type} {x y : Run α} {f g : α → Run β}, R α x y → (∀ a, R β (f a) (g a)) →
    R β (x >>= f) (y >>= g)
  beside : ∀ {α : Type} {x y : Run α} {xs ys : Unit → Run (List α)}, R α x y →
    R (List α) (xs ()) (ys ()) → R (List α) (x.beside xs) (y.beside ys)

theorem respected_eq : Respected fun α (x y : Run α) => x = y where
  refl _ := rfl
  bind := by
    rintro α β x _ f g rfl hf
    rw [funext hf]
  beside := by
    rintro α x _ xs ys rfl hxs
    exact congrArg (Run.beside x) (funext fun _ => hxs)

/-- When nothing comes of runs side by side, one of them stopped so. -/
theorem result_beside_eq_error {α : Type} {x : Run α} {others : Unit → Run (List α)} {s : Stop}
    (h : (x.beside others).result = .error s) :
    x.result = .error s ∨ (others ()).result = .error s := by
  have hcombine : (combine x (others ())).result = .error s := by
    have := congrArg Prod.snd (outcome_beside x others)
    exact this.symm.trans h
  unfold combine at hcombine
  cases hx : x.result with
  | ok a =>
      cases hy : (others ()).result with
      | ok rest => simp [hx, hy] at hcombine
      | error t => simpa [hx, hy] using hcombine
  | error t =>
      cases hy : (others ()).result with
      | ok rest => simpa [hx, hy] using hcombine
      | error u =>
          by_cases hle : x.rounds ≤ (others ()).rounds
          · exact .inl (by simpa [hx, hy, hle] using hcombine)
          · exact .inr (by simpa [hx, hy, hle] using hcombine)

theorem result_ofLogged_ne_tooDeep {α : Type} (step : Logged α) :
    (ofLogged step).result ≠ .error .tooDeep := by
  rw [result_ofLogged]
  cases step.result <;> exact nofun

end Run

section

variable {R : (α : Type) → Run α → Run α → Prop} (hR : Run.Respected R)
include hR

theorem besideItems_rel {f g : Nat → Json → Run Node} (index : Nat) {items : List Json}
    (h : ∀ i item, items[i]? = some item → R Node (f (index + i) item) (g (index + i) item)) :
    R (List Node) (besideItems f index items) (besideItems g index items) := by
  induction items generalizing index with
  | nil =>
      rw [besideItems, besideItems]
      exact hR.refl (by simp)
  | cons first rest ih =>
      rw [besideItems, besideItems]
      refine hR.beside (h 0 first rfl) (ih (index + 1) fun i item hitem => ?_)
      rw [show index + 1 + i = index + (i + 1) by omega]
      exact h (i + 1) item hitem

theorem besideMembers_rel {f g : String → Json → Run Node} {members : List (String × Json)}
    (h : ∀ entry ∈ members, R Node (f entry.1 entry.2) (g entry.1 entry.2)) :
    R (List (String × Node)) (besideMembers f members) (besideMembers g members) := by
  induction members with
  | nil =>
      rw [besideMembers, besideMembers]
      exact hR.refl (by simp)
  | cons first rest ih =>
      obtain ⟨hfirst, hrest⟩ := List.forall_mem_cons.1 h
      rw [besideMembers, besideMembers]
      exact hR.beside (hR.bind hfirst fun node => hR.refl (by simp)) (ih hrest)

/-- A program that is run with evaluations that come out alike comes out alike. -/
theorem Program.run_rel {ι α : Type} {parse parse' : Json → Overrides ι → Run Node}
    (hattempt : ∀ {x y : Run Node}, R Node x y → R _ x.attempt y.attempt) {p : Program ι α}
    (h : ∀ v overrides, p.Asks v overrides → R Node (parse v overrides) (parse' v overrides)) :
    R α (p.run parse) (p.run parse') := by
  induction p with
  | done a => exact hR.refl (by simp [Program.run])
  | fail e => exact hR.refl (by simp [Program.run, Run.fail, Run.stop])
  | wait n next ih =>
      refine hR.bind (hR.refl (by simp [Run.wait])) fun _ => ih fun v overrides hask => ?_
      exact h v overrides (.wait hask)
  | report event next ih =>
      refine hR.bind (hR.refl (by simp)) fun _ => ih fun v overrides hask => ?_
      exact h v overrides (.report hask)
  | parse w before next ih =>
      refine hR.bind (hattempt (h w before .here)) fun result => ?_
      refine ih result fun v overrides hask => ?_
      exact h v overrides (.later result hask)

variable {ι : Type} [DecidableEq ι] {catalogue : Catalogue ι}

/-- The evaluation of children makes no other calls than those for children. -/
theorem descend_rel {call call' : Frame ι → Json → Run Node} {frame : Frame ι} {value : Json}
    (hnone : frame.match? catalogue value = none)
    (h : ∀ inner, Call.Enters catalogue ⟨frame, value⟩ inner →
      R Node (call inner.frame inner.value) (call' inner.frame inner.value)) :
    R Node (descend call frame value) (descend call' frame value) := by
  cases value with
  | array items =>
      have hchildren := besideItems_rel hR (f := fun i => call (frame.child (.index i) _))
        (g := fun i => call' (frame.child (.index i) _)) 0 fun i item hitem => by
          rw [Nat.zero_add]
          exact h _ (.item hnone hitem)
      exact hR.bind hchildren fun children => hR.refl (by simp)
  | object members =>
      have hchildren := besideMembers_rel hR (f := fun key => call (frame.child (.key key) _))
        (g := fun key => call' (frame.child (.key key) _)) fun entry hentry =>
          h _ (.member hnone hentry)
      exact hR.bind hchildren fun children => hR.refl (Run.result_ofLogged_ne_tooDeep _)
  | _ => exact hR.refl (by simp [descend])

/-- The evaluation of a call makes no other calls than those that it `Makes`. -/
theorem evaluateNode_rel (hattempt : ∀ {x y : Run Node}, R Node x y → R _ x.attempt y.attempt)
    {limit limit' : Nat} {call : Call ι}
    (h : ∀ inner, call.Makes catalogue inner →
      R Node (evaluateNode catalogue limit inner.frame inner.value)
        (evaluateNode catalogue limit' inner.frame inner.value)) :
    R Node (evaluateNode catalogue (limit + 1) call.frame call.value)
      (evaluateNode catalogue (limit' + 1) call.frame call.value) := by
  obtain ⟨frame, value⟩ := call
  cases hmatch : frame.match? catalogue value with
  | none =>
      simp only [evaluateNode, hmatch]
      exact descend_rel hR hmatch fun inner hinner => h inner (.below hinner)
  | some found =>
      obtain ⟨e, transform⟩ := found
      simp only [evaluateNode, hmatch]
      refine hR.bind (hR.refl (by simp)) fun _ => ?_
      refine Program.run_rel hR hattempt fun v overrides hask => ?_
      exact h _ (.again (.intro hmatch hask))

end

/-! ### Other active lists -/

/-- The frame under another active list. -/
def Frame.relisted {ι : Type} (frame : Frame ι) (extensions : List ι) : Frame ι :=
  { frame with extensions := extensions }

/-- Children are evaluated under the list of their parent. -/
theorem descend_relisted {ι : Type} (call : Frame ι → Json → Run Node) (frame : Frame ι)
    (extensions : List ι) (value : Json) :
    descend call (frame.relisted extensions) value =
      descend (fun inner v => call (inner.relisted extensions) v) frame value := by
  cases value <;> rfl

end LayeredConfig
