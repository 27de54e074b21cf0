import LayeredConfig.Proofs.Node.Preorder
import LayeredConfig.Proofs.ReservedKeys.Merged
import LayeredConfig.Proofs.ReservedKeys.Valid

/-!
# What validation reports

Validation gathers the members that directives have left behind: objects in the order of the
traversal, and the members of one object in their own order. The main statement,
`validate_reports_leftovers`, says that it reports each of them once, in that order, and nothing
else. Two members are told apart by their key and the positions of their object; the rendered paths
that the errors show may agree.
-/

namespace LayeredConfig

namespace ReservedKeys

/-- A member that directives have left behind: its key starts with the marker, and its node is not
marked as unescaped. -/
def Leftover (marker : String) (entry : String × Node) : Prop :=
  (∃ rest, entry.1 = marker ++ rest) ∧
    entry.2.metadata.get? Metadata.fromEscapedDirective ≠ some (.bool true)

/-- Of two members, each given by its key and the path of its object, the first one is reported
first: its object comes first, or both stand in one object and it stands in front. -/
def ReportedBefore (n : Node) (first second : String × List Position) : Prop :=
  n.Precedes first.2.tail second.2.tail ∨
    first.2 = second.2 ∧ ∃ holder, (first.2, holder) ∈ n.entries ∧
      [first.1, second.1].Sublist (Members.keys (holder.members?.getD []))

variable {marker : String} {n : Node}

theorem violates_iff {entry : String × Node} :
    violates marker entry = true ↔ Leftover marker entry := by
  have hstarts : Marker.starts marker entry.1 = true ↔ ∃ rest, entry.1 = marker ++ rest := by
    simp only [← Marker.behind?_eq_some_iff, Marker.behind?, Option.ite_none_right_eq_some]
    exact ⟨fun h => ⟨_, h, rfl⟩, fun h => h.choose_spec.1⟩
  rw [violates, Bool.and_eq_true, Bool.not_eq_true', ← Bool.not_eq_true,
    Metadata.flag_eq_true_iff, hstarts, Leftover]

theorem mem_violations_iff_leftover {key : String} {path : List Position} :
    (key, path) ∈ violations marker n ↔
      ∃ below holder child, path = .root :: below ∧ n.Leads below holder ∧
        (key, child) ∈ holder.members?.getD [] ∧ Leftover marker (key, child) := by
  simp only [mem_violations_iff, ViolatesAt, violates_iff, exists_and_left]

/-! ### The order of reports -/

theorem pairwise_reportedBefore_violations (marker : String) (n : Node) :
    (violations marker n).Pairwise (ReportedBefore n) := by
  rw [violations, List.pairwise_flatMap]
  constructor
  · rintro ⟨path, holder⟩ hentry
    rw [List.pairwise_map, List.pairwise_iff_forall_sublist]
    intro first second hsub
    have hkeys := (hsub.trans List.filter_sublist).map Prod.fst
    exact .inr ⟨rfl, holder, hentry, hkeys⟩
  · refine (Node.pairwise_precedes_entries n).imp fun hprecedes violation hmem other hother => ?_
    obtain ⟨_, -, rfl⟩ := List.mem_map.1 hmem
    obtain ⟨_, -, rfl⟩ := List.mem_map.1 hother
    exact .inl hprecedes

/-- Where keys are distinct, the order of reports does not go both ways. -/
theorem not_reportedBefore (h : n.KeysDistinct) {first second : String × List Position}
    (hbefore : ReportedBefore n first second) : ¬ ReportedBefore n second first := by
  rintro (hback | ⟨hpath, holder', hentry', hback⟩)
  · rcases hbefore with hprecedes | ⟨hpath, -⟩
    · exact h.not_precedes hprecedes hback
    · rw [hpath] at hback
      exact h.not_precedes hback hback
  · rcases hbefore with hprecedes | ⟨-, holder, hentry, hkeys⟩
    · rw [hpath] at hprecedes
      exact h.not_precedes hprecedes hprecedes
    · obtain ⟨-, rfl⟩ := Prod.mk.inj
        (List.inj_on_of_nodup_map h.nodup_paths_entries hentry hentry' hpath.symm)
      exact not_sublist_swap (h holder (List.mem_map_of_mem hentry)) hkeys hback

/-- Where keys are distinct, no member is reported twice. -/
theorem nodup_violations (h : n.KeysDistinct) : (violations marker n).Nodup := by
  refine (pairwise_reportedBefore_violations marker n).imp fun hbefore hsame => ?_
  rw [hsame] at hbefore
  exact not_reportedBefore h hbefore hbefore

/-- Validation passes the trees in which directives have left no member behind. Else it fails with
all such members of the tree, each of them once: the objects that hold them in depth-first order,
and the members of one object in their order, which is the only list of them in that order. A single
one is reported as it is, several as an aggregate. -/
theorem validate_reports_leftovers (hm : marker ≠ "") (h : n.KeysDistinct) :
    (validate marker n = .ok () ↔ ∀ path holder, n.Leads path holder →
      ∀ entry ∈ holder.members?.getD [], ¬ Leftover marker entry) ∧
    (∀ first second, ReportedBefore n first second → ¬ ReportedBefore n second first) ∧
    ∃ found : List (String × List Position),
      (∀ key path, (key, path) ∈ found ↔ ∃ below holder child, path = .root :: below ∧
        n.Leads below holder ∧ (key, child) ∈ holder.members?.getD [] ∧
          Leftover marker (key, child)) ∧
      found.Nodup ∧ found.Pairwise (ReportedBefore n) ∧
      (found = [] → validate marker n = .ok ()) ∧
      (∀ key path, found = [(key, path)] →
        validate marker n = .error (.reservedKey key (Position.renderPath path))) ∧
      (2 ≤ found.length → validate marker n = .error (.aggregate
        (found.map fun member => .reservedKey member.1 (Position.renderPath member.2)))) := by
  refine ⟨?_, fun _ _ => not_reportedBefore h, ?_⟩
  · rw [validate_eq_ok_iff hm, Respects, Node.Everywhere, forall_comm]
    simp only [Node.mem_nodes_iff, forall_exists_index, ← violates_iff, Bool.not_eq_true]
  · refine ⟨violations marker n, fun key path => mem_violations_iff_leftover, nodup_violations h,
      pairwise_reportedBefore_violations marker n, fun hnone => ?_, fun key path hone => ?_,
      fun hseveral => ?_⟩
    · rw [validate, if_neg hm, hnone]
      rfl
    · rw [validate, if_neg hm, hone]
      rfl
    · rw [validate, if_neg hm]
      rcases hfound : violations marker n with _ | ⟨first, _ | ⟨second, others⟩⟩
      · simp [hfound] at hseveral
      · simp [hfound] at hseveral
      · rfl

/-- A tree with two members that directives have left behind at its root, one of them with another
one inside, and with an unescaped member between them. -/
def leftoverTree : Node :=
  .ofMembers (.literal 0 .null) .null
    [("$all", .literal (.literal 0 .null) .empty (.array [.object [("$any", .null)]])),
      ("$kept", .leaf ⟨[.literal 0 .null], .null,
        ⟨[(Metadata.fromEscapedDirective, .bool true)]⟩⟩ .null),
      ("$none", .literal (.literal 0 .null) .empty .null)]

theorem validate_reports_leftovers_nested :
    "$" ≠ "" ∧ leftoverTree.KeysDistinct ∧ validate "$" leftoverTree ≠ .ok () ∧
    (∃ found : List (String × List Position),
      ("$any", [.root, .key "$all", .index 0]) ∈ found ∧ found.Nodup ∧
      found.Pairwise (ReportedBefore leftoverTree) ∧
      (2 ≤ found.length → validate "$" leftoverTree = .error (.aggregate
        (found.map fun member => .reservedKey member.1 (Position.renderPath member.2))))) ∧
    validate "$" leftoverTree = .error (.aggregate [.reservedKey "$all" "#",
      .reservedKey "$none" "#", .reservedKey "$any" "#/$all/0"]) := by
  have hm : "$" ≠ "" := by decide
  have hkeys : leftoverTree.KeysDistinct := by decide
  obtain ⟨hok, -, found, hfound, hnodup, hordered, -, -, hseveral⟩ :=
    validate_reports_leftovers hm hkeys
  obtain ⟨holder, child, hlead, hchild, hleftover⟩ : ∃ holder child,
      leftoverTree.Leads [.key "$all", .index 0] holder ∧
        ("$any", child) ∈ holder.members?.getD [] ∧ Leftover "$" ("$any", child) :=
    ⟨_, _, .member List.mem_cons_self (.item rfl (.here _)), List.mem_cons_self, ⟨"any", rfl⟩,
      nofun⟩
  refine ⟨hm, hkeys, fun hvalid => ?_, ⟨found, ?_, hnodup, hordered, hseveral⟩, rfl⟩
  · exact hok.1 hvalid _ holder hlead _ hchild hleftover
  · exact (hfound _ _).2 ⟨_, holder, child, rfl, hlead, hchild, hleftover⟩

end ReservedKeys

end LayeredConfig
