import LayeredConfig.Proofs.Evaluation.Guard
import LayeredConfig.Proofs.Evaluation.Outcome
import LayeredConfig.Proofs.ObjectStep.Taken

/-!
# Directives that hand a tree on

A directive that answers with what one of its evaluations gave adds nothing of its own
(`Program.Forwards`). Where all transforms are like this, the tree of a call is that of the last
call of a chain at the node, at which no extension matches (`Call.exists_descend`), and it holds all
metadata that the frames of the chain laid over it (`Call.invariant_holds_metadata`).
-/

namespace LayeredConfig

namespace Program

variable {ι : Type} {mark : Metadata}

/-- The program answers with a tree that one of its evaluations gave, and has values evaluated under
the extensions at hand and with no metadata of its own under the keys of the mark. -/
structure Forwards (mark : Metadata) (p : Program ι Node) : Prop where
  answers : ∀ trees node, p.Answers trees node → node ∈ trees
  extensions : ∀ v overrides, p.Asks v overrides → overrides.extensions = none
  metadata : ∀ v overrides, p.Asks v overrides → ∀ upper, overrides.metadata = some upper →
    ∀ key, mark.Holds key → ¬ upper.Holds key

theorem Forwards.unmarked {p : Program ι Node} (h : p.Forwards mark) : p.Forwards .empty :=
  ⟨h.answers, h.extensions, fun _ _ _ _ _ key hkey => absurd hkey (Metadata.not_holds_empty key)⟩

/-- Having a value evaluated under other metadata is handing its tree on. -/
theorem forwards_evaluate (v : Json) {metadata : Metadata}
    (h : ∀ key, mark.Holds key → ¬ metadata.Holds key) :
    (evaluate v { metadata := metadata } : Program ι Node).Forwards mark where
  answers trees node hanswers := by
    rw [answers_evaluate.1 hanswers]
    exact List.mem_singleton_self node
  extensions w overrides hasks := by
    obtain ⟨-, rfl⟩ := asks_evaluate.1 hasks
    rfl
  metadata w overrides hasks upper hupper := by
    obtain ⟨-, rfl⟩ := asks_evaluate.1 hasks
    rwa [← Option.some.inj hupper]

end Program

theorem Extension.forwards_markAll {ι : Type} (metadata : Metadata) :
    (markAll metadata : Extension ι).Programs (Program.Forwards .empty) := by
  intro value position ancestors context transform happlies input
  obtain ⟨-, heq⟩ := Option.ite_none_left_eq_some.1 happlies
  obtain rfl := Option.some.inj heq
  exact Program.forwards_evaluate value fun key hkey => absurd hkey (Metadata.not_holds_empty key)

namespace Call

variable {ι : Type} [DecidableEq ι] {catalogue : Catalogue ι} {call inner : Call ι} {d : ι}
  {key : String}

theorem Reenters.position_eq (h : Reenters catalogue call d inner) :
    inner.frame.position = call.frame.position := by
  cases h
  rfl

/-- Metadata of a node is laid over, never taken off, when a value is evaluated again. -/
theorem Reenters.holds_metadata (h : Reenters catalogue call d inner)
    (hkey : call.frame.metadata.Holds key) : inner.frame.metadata.Holds key := by
  obtain @⟨frame, value, v, _, _, overrides, -, -⟩ := h
  rw [Frame.overridden]
  cases overrides.metadata with
  | none => exact hkey
  | some upper => exact Metadata.holds_extended.2 (.inl hkey)

theorem Reenters.extensions_eq {mark : Metadata} (h : Reenters catalogue call d inner)
    (hd : (catalogue d).Programs (Program.Forwards mark)) :
    inner.frame.extensions = call.frame.extensions := by
  obtain @⟨frame, value, v, _, _, overrides, hmatch, hasks⟩ := h
  rw [Frame.overridden, (hd.of_match? hmatch).extensions v overrides hasks]
  rfl

theorem Reenters.not_holds_metadata {mark : Metadata} (h : Reenters catalogue call d inner)
    (hd : (catalogue d).Programs (Program.Forwards mark)) (hkey : mark.Holds key)
    (hcall : ¬ call.frame.metadata.Holds key) : ¬ inner.frame.metadata.Holds key := by
  obtain @⟨frame, value, v, _, _, overrides, hmatch, hasks⟩ := h
  rw [Frame.overridden]
  cases hupper : overrides.metadata with
  | none => exact hcall
  | some upper =>
      have hnot := (hd.of_match? hmatch).metadata v overrides hasks upper hupper key hkey
      exact fun hinner => (Metadata.holds_extended.1 hinner).elim hcall hnot

theorem Reenters.mem_extensions (h : Reenters catalogue call d inner) :
    d ∈ call.frame.extensions := by
  obtain ⟨hmatch, -⟩ := h
  exact mem_extensions_of_match? hmatch

/-- Where transforms hand trees on, the tree of a call keeps what its frame lays over it. -/
theorem invariant_holds_metadata (key : String) :
    Invariant catalogue fun call node =>
      (∀ d ∈ call.frame.extensions, (catalogue d).Programs (Program.Forwards .empty)) →
        call.frame.metadata.Holds key → node.metadata.Holds key where
  leaf _ _ _ _ _ hkey := hkey
  array _ _ _ _ _ _ hkey := hkey
  object _ _ _ _ _ _ hok _ hkey := ObjectStep.holds_metadata_of_label hok hkey
  again frame value e transform trees node hmatch hanswers htrees hforwards hkey := by
    have he := hforwards e (mem_extensions_of_match? hmatch)
    have hamong := (he.of_match? hmatch).answers trees node hanswers
    obtain ⟨inner, hreenters, hinner⟩ := htrees node hamong
    refine hinner ?_ (hreenters.holds_metadata hkey)
    rwa [hreenters.extensions_eq he]

/-- Where transforms hand trees on, the tree of a call is that of the last call of a chain. -/
theorem exists_descend (call : Call ι) {limit : Nat} {tree : Node}
    (hforwards : ∀ d ∈ call.frame.extensions, (catalogue d).Programs (Program.Forwards .empty))
    (hok : (evaluateNode catalogue limit call.frame call.value).result = .ok tree) :
    ∃ used last n, Chain catalogue call used last ∧
      last.frame.match? catalogue last.value = none ∧
      (descend (evaluateNode catalogue n) last.frame last.value).result = .ok tree := by
  induction limit generalizing call with
  | zero => cases hok
  | succ n ih =>
      rw [evaluateNode] at hok
      cases hmatch : call.frame.match? catalogue call.value with
      | none =>
          rw [hmatch] at hok
          exact ⟨[], call, n, .nil, hmatch, hok⟩
      | some found =>
          obtain ⟨d, transform⟩ := found
          rw [hmatch] at hok
          obtain ⟨-, -, hrun⟩ := Run.result_bind_eq_ok_iff.1 hok
          obtain ⟨trees, hanswers, htrees⟩ := Program.exists_answers hrun
          have hd := hforwards d (mem_extensions_of_match? hmatch)
          have hmem := (hd.of_match? hmatch).answers trees tree hanswers
          obtain ⟨v, overrides, hasks, hresult⟩ := htrees tree hmem
          have hreenters : Reenters catalogue call d
              ⟨(call.frame.visit d).overridden overrides, v⟩ := .intro hmatch hasks
          have hsame : ∀ c ∈ ((call.frame.visit d).overridden overrides).extensions,
              (catalogue c).Programs (Program.Forwards .empty) := by
            rw [hreenters.extensions_eq hd]
            exact hforwards
          obtain ⟨used, last, m, hchain, hnone, hlast⟩ :=
            ih ⟨(call.frame.visit d).overridden overrides, v⟩ hsame hresult
          exact ⟨d :: used, last, m, hchain.head hreenters, hnone, hlast⟩

end Call

end LayeredConfig
