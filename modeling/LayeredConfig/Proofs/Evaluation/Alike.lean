import Mathlib.Data.List.Forall2
import LayeredConfig.Proofs.Evaluation.Calls
import LayeredConfig.Proofs.Node.Forgetting

/-!
# Two evaluations that come out alike

Two evaluations of one value can differ in their frames and in how deep they may nest. What relates
their runs is `Run.Continues`: the second run comes to what the first one comes to, in the same
round, unless the first one nests too deep, and then the second one goes on at least as long.
Everything that runs are put together from keeps this, in either direction (`Run.Carried`), so it is
kept by programs that take the same steps (`Program.Alike.run`) and by descending into children
(`descend_alike`).
-/

namespace LayeredConfig

/-- Two values that are related, or one failure on both sides. -/
inductive Paired {ε α β : Type} (V : α → β → Prop) : Except ε α → Except ε β → Prop
  | ok {a : α} {b : β} : V a b → Paired V (.ok a) (.ok b)
  | error (e : ε) : Paired V (.error e) (.error e)

namespace Paired

variable {ε α β : Type} {V : α → β → Prop}

theorem flip {x : Except ε α} {y : Except ε β} (h : Paired V x y) :
    Paired (fun b a => V a b) y x := by
  cases h with
  | ok h => exact .ok h
  | error e => exact .error e

theorem mono {V' : α → β → Prop} (hV : ∀ a b, V a b → V' a b) {x : Except ε α} {y : Except ε β}
    (h : Paired V x y) : Paired V' x y := by
  cases h with
  | ok h => exact .ok (hV _ _ h)
  | error e => exact .error e

theorem cases_iff {x : Except ε α} {y : Except ε β} :
    Paired V x y ↔
      (∃ a b, x = .ok a ∧ y = .ok b ∧ V a b) ∨ ∃ e, x = .error e ∧ y = .error e := by
  constructor
  · rintro (h | e)
    · exact .inl ⟨_, _, rfl, rfl, h⟩
    · exact .inr ⟨e, rfl, rfl⟩
  · rintro (⟨a, b, rfl, rfl, h⟩ | ⟨e, rfl, rfl⟩)
    · exact .ok h
    · exact .error e

theorem error_iff {x : Except ε α} {y : Except ε β} (h : Paired V x y) {e : ε} :
    x = .error e ↔ y = .error e := by
  rcases cases_iff.1 h with ⟨a, b, rfl, rfl, -⟩ | ⟨e', rfl, rfl⟩
  · exact iff_of_false nofun nofun
  · rw [Except.error.injEq, Except.error.injEq]

theorem exists_of_ok {x : Except ε α} {y : Except ε β} (h : Paired V x y) {a : α} (hx : x = .ok a) :
    ∃ b, y = .ok b ∧ V a b := by
  rcases cases_iff.1 h with ⟨a', b, rfl, rfl, hab⟩ | ⟨e, rfl, -⟩
  · exact ⟨b, rfl, Except.ok.inj hx ▸ hab⟩
  · cases hx

/-- What comes out the same when it is looked at through a function is paired by it. -/
theorem iff_map_eq {γ : Type} {F : α → γ} {x y : Except ε α} :
    Paired (fun a b => F a = F b) x y ↔ x.map F = y.map F := by
  constructor
  · rintro (h | e)
    · exact congrArg Except.ok h
    · rfl
  · intro h
    cases x with
    | error e =>
        cases y with
        | error e' => obtain rfl := Except.error.inj h; exact .error e
        | ok b => cases h
    | ok a =>
        cases y with
        | error e' => cases h
        | ok b => exact .ok (Except.ok.inj h)

end Paired

namespace Run

variable {α β γ δ : Type} {V : α → β → Prop} {W : γ → δ → Prop}

/-- The second run comes to what the first one comes to, in the same round, unless the first one was
cut off; then the second one goes on at least until the round of that. -/
def Continues (V : α → β → Prop) (x : Run α) (y : Run β) : Prop :=
  (x.result = .error .tooDeep ∧ x.rounds ≤ y.rounds) ∨
    (x.rounds = y.rounds ∧ Paired V x.result y.result)

/-- What is not cut off comes to the same. -/
theorem Continues.paired {x : Run α} {y : Run β} (h : Continues V x y)
    (hx : x.result ≠ .error .tooDeep) : Paired V x.result y.result :=
  (h.resolve_left fun hcut => hx hcut.1).2

theorem Continues.mono {V' : α → β → Prop} (hV : ∀ a b, V a b → V' a b) {x : Run α} {y : Run β}
    (h : Continues V x y) : Continues V' x y :=
  h.imp_right fun ⟨hrounds, hpaired⟩ => ⟨hrounds, hpaired.mono hV⟩

theorem rounds_le_rounds_bind (x : Run α) (f : α → Run γ) : x.rounds ≤ (x >>= f).rounds := by
  cases h : x.result with
  | ok a => exact rounds_bind_of_ok h f ▸ Nat.le_add_right _ _
  | error s => exact Nat.le_of_eq (rounds_bind_of_error h f).symm

theorem Continues.bind {x : Run α} {y : Run β} {f : α → Run γ} {g : β → Run δ}
    (h : Continues V x y) (hfg : ∀ a b, V a b → Continues W (f a) (g b)) :
    Continues W (x >>= f) (y >>= g) := by
  rcases h with ⟨hcut, hle⟩ | ⟨hrounds, hpaired⟩
  · refine .inl ⟨by rw [result_bind, hcut]; rfl, ?_⟩
    rw [rounds_bind_of_error hcut]
    exact Nat.le_trans hle (rounds_le_rounds_bind y g)
  · rcases Paired.cases_iff.1 hpaired with ⟨a, b, hx, hy, hab⟩ | ⟨s, hx, hy⟩
    · rw [Continues, result_bind, result_bind, rounds_bind_of_ok hx, rounds_bind_of_ok hy, hx, hy]
      rcases hfg a b hab with ⟨hcut, hle⟩ | ⟨hnext, hnextPaired⟩
      · exact .inl ⟨hcut, by omega⟩
      · exact .inr ⟨by omega, hnextPaired⟩
    · rw [Continues, result_bind, result_bind, rounds_bind_of_error hx, rounds_bind_of_error hy, hx,
        hy]
      exact .inr ⟨hrounds, .error s⟩

theorem Continues.attempt {x : Run α} {y : Run β} (h : Continues V x y) :
    Continues (Paired V) x.attempt y.attempt := by
  rcases h with ⟨hcut, hle⟩ | ⟨hrounds, hpaired⟩
  · exact .inl ⟨by rw [result_attempt, hcut], hle⟩
  · refine .inr ⟨hrounds, ?_⟩
    rw [result_attempt, result_attempt]
    rcases Paired.cases_iff.1 hpaired with ⟨a, b, hx, hy, hab⟩ | ⟨s, hx, hy⟩
    · rw [hx, hy]
      exact .ok (.ok hab)
    · rw [hx, hy]
      cases s with
      | tooDeep => exact .error _
      | failed e => exact .ok (.error e)

theorem Continues.congr {x x' : Run α} {y y' : Run β} (hx : x.outcome = x'.outcome)
    (hy : y.outcome = y'.outcome) (h : Continues V x y) : Continues V x' y' := by
  obtain ⟨hxrounds, hxresult⟩ := Prod.mk.inj hx
  obtain ⟨hyrounds, hyresult⟩ := Prod.mk.inj hy
  rwa [Continues, ← hxrounds, ← hxresult, ← hyrounds, ← hyresult]

/-! ### Side by side -/

section

variable {x : Run α} {xs : Run (List α)}

theorem outcome_combine_of_ok {a : α} {as : List α} (hx : x.result = .ok a)
    (hxs : xs.result = .ok as) :
    (combine x xs).outcome = (max x.rounds xs.rounds, .ok (a :: as)) := by
  simp [combine, outcome, hx, hxs]

/-- The first run stops the whole when the others have not stopped before. -/
theorem outcome_combine_of_first {s : Stop} (hx : x.result = .error s)
    (h : ∀ t, xs.result = .error t → x.rounds ≤ xs.rounds) :
    (combine x xs).outcome = (x.rounds, .error s) := by
  cases hxs : xs.result with
  | ok as => simp [combine, outcome, hx, hxs]
  | error t => simp [combine, outcome, hx, hxs, h t hxs]

/-- The others stop the whole when the first run has not stopped before or with them. -/
theorem outcome_combine_of_others {t : Stop} (hxs : xs.result = .error t)
    (h : ∀ s, x.result = .error s → xs.rounds < x.rounds) :
    (combine x xs).outcome = (xs.rounds, .error t) := by
  cases hx : x.result with
  | ok a => simp [combine, outcome, hx, hxs]
  | error s => simp [combine, outcome, hx, hxs, Nat.not_le.2 (h s hx)]

/-- The whole goes on until a round that both go on until, or that one does and the other gives a
value. -/
theorem le_rounds_combine {n : Nat} (hx : ∀ s, x.result = .error s → n ≤ x.rounds)
    (hxs : ∀ t, xs.result = .error t → n ≤ xs.rounds) (h : n ≤ max x.rounds xs.rounds) :
    n ≤ (combine x xs).rounds := by
  unfold combine
  cases hxr : x.result with
  | ok a =>
      cases hxsr : xs.result with
      | ok as => exact h
      | error t => exact hxs t hxsr
  | error s =>
      cases hxsr : xs.result with
      | ok as => exact hx s hxr
      | error t =>
          dsimp only
          split
          · exact hx s hxr
          · exact hxs t hxsr

end

theorem Continues.of_outcome {x : Run α} {y : Run β} {rounds : Nat} {result : Except Stop α}
    {result' : Except Stop β} (hx : x.outcome = (rounds, result))
    (hy : y.outcome = (rounds, result'))
    (h : Paired V result result') : Continues V x y := by
  obtain ⟨hxrounds, hxresult⟩ := Prod.mk.inj hx
  obtain ⟨hyrounds, hyresult⟩ := Prod.mk.inj hy
  refine .inr ⟨hxrounds.trans hyrounds.symm, ?_⟩
  rwa [hxresult, hyresult]

theorem Continues.of_cut {x : Run α} {y : Run β} {rounds : Nat}
    (hx : x.outcome = (rounds, .error .tooDeep)) (hy : rounds ≤ y.rounds) : Continues V x y := by
  obtain ⟨hrounds, hresult⟩ := Prod.mk.inj hx
  exact .inl ⟨hresult, hrounds ▸ hy⟩

/-- Side by side, the first run stops the whole, or the others do, or all give a value. -/
theorem combine_cases (x : Run α) (xs : Run (List α)) :
    (∃ s, x.result = .error s ∧ ∀ t, xs.result = .error t → x.rounds ≤ xs.rounds) ∨
      (∃ t, xs.result = .error t ∧ ∀ s, x.result = .error s → xs.rounds < x.rounds) ∨
        ∃ a as, x.result = .ok a ∧ xs.result = .ok as := by
  cases hx : x.result with
  | ok a =>
      cases hxs : xs.result with
      | ok as => exact .inr (.inr ⟨a, as, rfl, rfl⟩)
      | error t => exact .inr (.inl ⟨t, rfl, fun s hs => nomatch hs⟩)
  | error s =>
      cases hxs : xs.result with
      | ok as => exact .inl ⟨s, rfl, fun t ht => nomatch ht⟩
      | error t =>
          by_cases horder : x.rounds ≤ xs.rounds
          · exact .inl ⟨s, rfl, fun _ _ => horder⟩
          · exact .inr (.inl ⟨t, rfl, fun _ _ => Nat.lt_of_not_le horder⟩)

/-- When the second run stops, the first one has stopped no later. -/
theorem Continues.exists_error {x : Run α} {y : Run β} (h : Continues V x y) {t : Stop}
    (hy : y.result = .error t) : ∃ s, x.result = .error s ∧ x.rounds ≤ y.rounds := by
  rcases h with ⟨hcut, hle⟩ | ⟨hrounds, hpaired⟩
  · exact ⟨_, hcut, hle⟩
  · exact ⟨t, hpaired.error_iff.2 hy, Nat.le_of_eq hrounds⟩

/-- Side by side, what stops the first whole stops the second one, too, or is a cut and the second
one goes on. -/
theorem Continues.combine {x : Run α} {y : Run β} {xs : Run (List α)} {ys : Run (List β)}
    (h : Continues V x y) (hs : Continues (List.Forall₂ V) xs ys) :
    Continues (List.Forall₂ V) (x.combine xs) (y.combine ys) := by
  rcases combine_cases x xs with ⟨s, hx, hbefore⟩ | ⟨t, hxs, hbefore⟩ | ⟨a, as, hx, hxs⟩
  · have hothers : ∀ t, ys.result = .error t → x.rounds ≤ ys.rounds := fun t hys => by
      obtain ⟨t', hxs, hle⟩ := hs.exists_error hys
      exact Nat.le_trans (hbefore t' hxs) hle
    have hwhole := outcome_combine_of_first hx hbefore
    rcases h with ⟨hcut, hle⟩ | ⟨hrounds, hpaired⟩
    · rw [Except.error.inj (hx.symm.trans hcut)] at hwhole
      exact .of_cut hwhole (le_rounds_combine (fun _ _ => hle) hothers (by omega))
    · refine .of_outcome hwhole ?_ (.error s)
      rw [hrounds]
      exact outcome_combine_of_first (hpaired.error_iff.1 hx) fun t hys => hrounds ▸ hothers t hys
  · have hfirst : ∀ s, y.result = .error s → xs.rounds < y.rounds := fun s hy => by
      obtain ⟨s', hx, hle⟩ := h.exists_error hy
      exact Nat.lt_of_lt_of_le (hbefore s' hx) hle
    have hwhole := outcome_combine_of_others hxs hbefore
    rcases hs with ⟨hcut, hle⟩ | ⟨hrounds, hpaired⟩
    · rw [Except.error.inj (hxs.symm.trans hcut)] at hwhole
      exact .of_cut hwhole
        (le_rounds_combine (fun s hy => Nat.le_of_lt (hfirst s hy)) (fun _ _ => hle) (by omega))
    · refine .of_outcome hwhole ?_ (.error t)
      rw [hrounds]
      exact outcome_combine_of_others (hpaired.error_iff.1 hxs) fun s hy => hrounds ▸ hfirst s hy
  · obtain ⟨hrounds, hpaired⟩ := h.resolve_left fun hcut => nomatch hx.symm.trans hcut.1
    obtain ⟨hsrounds, hspaired⟩ := hs.resolve_left fun hcut => nomatch hxs.symm.trans hcut.1
    obtain ⟨b, hy, hab⟩ := hpaired.exists_of_ok hx
    obtain ⟨bs, hys, hasbs⟩ := hspaired.exists_of_ok hxs
    refine .of_outcome (outcome_combine_of_ok hx hxs) ?_ (.ok (.cons hab hasbs))
    rw [hrounds, hsrounds]
    exact outcome_combine_of_ok hy hys

theorem Continues.beside {x : Run α} {y : Run β} {xs : Unit → Run (List α)}
    {ys : Unit → Run (List β)} (h : Continues V x y)
    (hs : Continues (List.Forall₂ V) (xs ()) (ys ())) :
    Continues (List.Forall₂ V) (x.beside xs) (y.beside ys) :=
  (h.combine hs).congr (outcome_beside x xs).symm (outcome_beside y ys).symm

/-! ### Relations that are carried along -/

/-- A way of relating two runs, given how their values are related, that everything that runs are
put together from keeps. -/
structure Carried (R : (α β : Type) → (α → β → Prop) → Run α → Run β → Prop) : Prop where
  ended : ∀ {α β : Type} {V : α → β → Prop} {x : Run α} {y : Run β},
    x.rounds = y.rounds → Paired V x.result y.result → R α β V x y
  congr : ∀ {α β : Type} {V : α → β → Prop} {x x' : Run α} {y y' : Run β},
    x.outcome = x'.outcome → y.outcome = y'.outcome → R α β V x y → R α β V x' y'
  bind : ∀ {α β γ δ : Type} {V : α → β → Prop} {W : γ → δ → Prop} {x : Run α} {y : Run β}
    {f : α → Run γ} {g : β → Run δ}, R α β V x y → (∀ a b, V a b → R γ δ W (f a) (g b)) →
      R γ δ W (x >>= f) (y >>= g)
  attempt : ∀ {α β : Type} {V : α → β → Prop} {x : Run α} {y : Run β}, R α β V x y →
    R (Except ConfigError α) (Except ConfigError β) (Paired V) x.attempt y.attempt
  beside : ∀ {α β : Type} {V : α → β → Prop} {x : Run α} {y : Run β} {xs : Unit → Run (List α)}
    {ys : Unit → Run (List β)}, R α β V x y → R (List α) (List β) (List.Forall₂ V) (xs ()) (ys ()) →
      R (List α) (List β) (List.Forall₂ V) (x.beside xs) (y.beside ys)

theorem carried_continues : Carried fun _ _ V x y => Continues V x y where
  ended hrounds hpaired := .inr ⟨hrounds, hpaired⟩
  congr := Continues.congr
  bind := Continues.bind
  attempt := Continues.attempt
  beside := Continues.beside

/-- The first run may as well be the one that goes on. -/
theorem carried_continued : Carried fun _ _ V x y => Continues (fun b a => V a b) y x where
  ended hrounds hpaired := .inr ⟨hrounds.symm, hpaired.flip⟩
  congr hx hy h := h.congr hy hx
  bind h hfg := h.bind fun b a hab => hfg a b hab
  attempt h := h.attempt.mono fun _ _ hpaired => hpaired.flip
  beside h hs := (h.beside (hs.mono fun _ _ hforall => hforall.flip)).mono fun _ _ hforall =>
    hforall.flip

end Run

/-! ### Programs -/

/-- The programs take the same steps and have values evaluated under the extensions at hand. They go
on alike whenever two trees that are related come of an evaluation, or one failure, and their
answers are related. -/
inductive Program.Alike {ι α β : Type} (T : Node → Node → Prop) (V : α → β → Prop) :
    Program ι α → Program ι β → Prop
  | done {a : α} {b : β} : V a b → Alike T V (.done a) (.done b)
  | fail (e : ConfigError) : Alike T V (.fail e) (.fail e)
  | wait (n : Nat) {p : Program ι α} {q : Program ι β} :
      Alike T V p q → Alike T V (.wait n p) (.wait n q)
  | report (event : Event) {p : Program ι α} {q : Program ι β} :
      Alike T V p q → Alike T V (.report event p) (.report event q)
  | parse (v : Json) {overrides : Overrides ι} {next : Except ConfigError Node → Program ι α}
      {next' : Except ConfigError Node → Program ι β} : overrides.extensions = none →
      (∀ outcome outcome', Paired T outcome outcome' → Alike T V (next outcome) (next' outcome')) →
        Alike T V (.parse v overrides next) (.parse v overrides next')

namespace Program

variable {ι α β γ δ : Type} {T : Node → Node → Prop} {V : α → β → Prop} {W : γ → δ → Prop}

theorem Alike.bind {p : Program ι α} {q : Program ι β} (h : p.Alike T V q) {f : α → Program ι γ}
    {g : β → Program ι δ} (hfg : ∀ a b, V a b → (f a).Alike T W (g b)) :
    (p >>= f).Alike T W (q >>= g) := by
  induction h with
  | done hab => exact hfg _ _ hab
  | fail e => exact .fail e
  | wait n _ ih => exact .wait n ih
  | report event _ ih => exact .report event ih
  | parse v hextensions _ ih => exact .parse v hextensions ih

theorem alike_ofExcept {x : Except ConfigError α} {y : Except ConfigError β} (h : Paired V x y) :
    (ofExcept x : Program ι α).Alike T V (ofExcept y) := by
  cases h with
  | ok h => exact .done h
  | error e => exact .fail e

theorem alike_evaluate (v : Json) {overrides : Overrides ι} (h : overrides.extensions = none) :
    (evaluate v overrides).Alike T T (evaluate v overrides) :=
  .parse v h fun _ _ => alike_ofExcept

/-- A step that looks at no tree comes out the same. -/
theorem alike_ofLogged (step : Logged α) :
    (ofLogged step : Program ι α).Alike T Eq (ofLogged step) := by
  obtain ⟨events, result⟩ := step
  induction events with
  | nil => exact alike_ofExcept (Paired.cases_iff.2 (by cases result <;> simp))
  | cons event rest ih => exact .report event ih

end Program

section

variable {R : (α β : Type) → (α → β → Prop) → Run α → Run β → Prop} (hR : Run.Carried R)
include hR

theorem Program.Alike.run {ι α β : Type} {T : Node → Node → Prop} {V : α → β → Prop}
    {p : Program ι α} {q : Program ι β} (h : p.Alike T V q)
    {parse parse' : Json → Overrides ι → Run Node}
    (hparse : ∀ v overrides, overrides.extensions = none →
      R Node Node T (parse v overrides) (parse' v overrides)) :
    R α β V (p.run parse) (q.run parse') := by
  induction h with
  | done hab => exact hR.ended rfl (.ok hab)
  | fail e => exact hR.ended rfl (.error _)
  | wait n _ ih => exact hR.bind (hR.ended rfl (.ok trivial)) fun _ _ (_ : True) => ih
  | report event _ ih => exact hR.bind (hR.ended rfl (.ok trivial)) fun _ _ (_ : True) => ih
  | parse v hextensions _ ih =>
      exact hR.bind (hR.attempt (hparse v _ hextensions)) ih

/-! ### Children -/

theorem besideItems_alike {T : Node → Node → Prop} {f g : Nat → Json → Run Node}
    (h : ∀ index item, R Node Node T (f index item) (g index item)) (index : Nat)
    (items : List Json) :
    R (List Node) (List Node) (List.Forall₂ T) (besideItems f index items)
      (besideItems g index items) := by
  induction items generalizing index with
  | nil => exact hR.ended rfl (.ok .nil)
  | cons item rest ih => exact hR.beside (h index item) (ih (index + 1))

theorem besideMembers_alike {T : Node → Node → Prop} {f g : String → Json → Run Node}
    (h : ∀ key value, R Node Node T (f key value) (g key value)) (members : List (String × Json)) :
    R (List (String × Node)) (List (String × Node))
      (List.Forall₂ fun a b => a.1 = b.1 ∧ T a.2 b.2) (besideMembers f members)
      (besideMembers g members) := by
  induction members with
  | nil => exact hR.ended rfl (.ok .nil)
  | cons entry rest ih =>
      obtain ⟨key, value⟩ := entry
      refine hR.beside (hR.bind (h key value) fun a b hab => ?_) ih
      exact hR.ended rfl (.ok ⟨rfl, hab⟩)

omit hR in
/-- Lists whose elements look the same through a function in turn look the same through it. -/
theorem map_eq_of_forall₂ {α β : Type} {F : α → β} {xs ys : List α}
    (h : List.Forall₂ (fun a b => F a = F b) xs ys) : xs.map F = ys.map F := by
  induction h with
  | nil => rfl
  | cons hab _ ih => rw [List.map_cons, List.map_cons, hab, ih]

omit hR in
/-- Members that are the same but for that are put together to the same but for that. -/
theorem paired_run {keys : List String} (hplain : ∀ key ∈ keys, key ∉ Metadata.instructions)
    {path : String} {label label' : Label} (hlabel : label.forget keys = label'.forget keys)
    {members members' : List (String × Node)}
    (h : List.Forall₂ (fun a b => a.1 = b.1 ∧ Node.SameBut keys a.2 b.2) members members') :
    Paired (Node.SameBut keys) (Run.ofLogged (ObjectStep.run path label members)).result
      (Run.ofLogged (ObjectStep.run path label' members')).result := by
  have hforget : Members.mapValues (Node.forget keys) members =
      Members.mapValues (Node.forget keys) members' :=
    map_eq_of_forall₂ (h.imp fun a b hab => Prod.ext hab.1 hab.2)
  have hresult : (ObjectStep.run path label members).result.map (Node.forget keys) =
      (ObjectStep.run path label' members').result.map (Node.forget keys) := by
    rw [← ObjectStep.result_run_forget hplain, ← ObjectStep.result_run_forget hplain, hlabel,
      hforget]
  rw [Run.result_ofLogged, Run.result_ofLogged]
  rcases Paired.cases_iff.1 (Paired.iff_map_eq.2 hresult) with ⟨a, b, hx, hy, hab⟩ | ⟨e, hx, hy⟩
  · rw [hx, hy]
    exact .ok hab
  · rw [hx, hy]
    exact .error _

/-- Containers are put together alike from children that come out alike. -/
theorem descend_alike {ι : Type} {keys : List String}
    (hplain : ∀ key ∈ keys, key ∉ Metadata.instructions) {call call' : Frame ι → Json → Run Node}
    {frame frame' : Frame ι} {value : Json} (hsource : frame.source = frame'.source)
    (hpath : frame.path = frame'.path)
    (hmetadata : frame.metadata.forget keys = frame'.metadata.forget keys)
    (h : ∀ position child, R Node Node (Node.SameBut keys)
      (call (frame.child position value) child) (call' (frame'.child position value) child)) :
    R Node Node (Node.SameBut keys) (descend call frame value) (descend call' frame' value) := by
  have hlabel : (⟨[frame.source], value, frame.metadata⟩ : Label).forget keys =
      (⟨[frame'.source], value, frame'.metadata⟩ : Label).forget keys := by
    simp only [Label.forget, hsource, hmetadata]
  cases value with
  | array items =>
      refine hR.bind (besideItems_alike hR (fun index => h (.index index)) 0 items) ?_
      intro children children' hchildren
      refine hR.ended rfl (.ok ?_)
      rw [Node.SameBut, Node.forget_array, Node.forget_array, hlabel, map_eq_of_forall₂ hchildren]
  | object members =>
      refine hR.bind (besideMembers_alike hR (fun key => h (.key key)) members) ?_
      intro children children' hchildren
      rw [hpath]
      exact hR.ended rfl (paired_run hplain hlabel hchildren)
  | _ =>
      refine hR.ended rfl (.ok ?_)
      rw [Node.SameBut, Node.forget_leaf, Node.forget_leaf, hlabel]

end

/-! ### Directives that overlook metadata -/

section

variable {ι : Type}

/-- What a transform is told about two nodes is the same but for the active list and for what stands
under the keys in the metadata. -/
structure Input.SameBut (keys : List String) (input input' : Input ι) : Prop where
  position_eq : input.position = input'.position
  ancestors_eq : input.ancestors = input'.ancestors
  source_eq : input.source = input'.source
  forget_metadata_eq : input.metadata.forget keys = input'.metadata.forget keys
  context_eq : input.context = input'.context
  parent_eq : input.parent = input'.parent
  root_eq : input.root = input'.root

/-- Transforms of the extension leave the active list in place and do not look at it, nor at what
stands under the keys in metadata, be it that of the node or of a tree that they had evaluated. -/
def Extension.Overlooks (keys : List String) (e : Extension ι) : Prop :=
  ∀ value position ancestors context transform,
    e.applies value position ancestors context = some transform →
      ∀ input input' : Input ι, input.SameBut keys input' →
        (transform input).Alike (Node.SameBut keys) (Node.SameBut keys) (transform input')

/-- Transforms of the extension leave the active list in place and do the same whatever that list
and the metadata of the node are. What they make of the trees that they had evaluated is left
open. -/
def Extension.OverlooksInput (e : Extension ι) : Prop :=
  ∀ value position ancestors context transform,
    e.applies value position ancestors context = some transform → ∀ input : Input ι,
      (∀ metadata extensions,
        transform { input with metadata := metadata, extensions := extensions } = transform input) ∧
      ∀ v overrides, (transform input).Asks v overrides → overrides.extensions = none

end

end LayeredConfig
