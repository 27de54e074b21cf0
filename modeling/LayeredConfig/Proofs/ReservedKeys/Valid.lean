import LayeredConfig.Proofs.Node.Everywhere
import LayeredConfig.ReservedKeys

/-!
# Trees without violations

Validation gathers the violations of all objects and fails with what it has gathered. It passes
exactly the trees that respect the reservation at every node (`validate_eq_ok_iff`), and the
equations for `Respects` take that apart along the tree.
-/

namespace LayeredConfig

namespace ReservedKeys

/-- No object of the tree holds a member that violates the reservation of the marker. -/
def Respects (marker : String) (n : Node) : Prop :=
  n.Everywhere fun m => ∀ entry ∈ m.members?.getD [], violates marker entry = false

variable {marker : String}

@[simp] theorem respects_leaf (label : Label) (value : Json) :
    Respects marker (.leaf label value) :=
  Node.everywhere_leaf.2 fun _ h => nomatch h

@[simp] theorem respects_array {label : Label} {items : List Node} :
    Respects marker (.array label items) ↔ ∀ item ∈ items, Respects marker item :=
  Node.everywhere_array.trans (and_iff_right fun _ h => nomatch h)

@[simp] theorem respects_object {label : Label} {members : List (String × Node)} :
    Respects marker (.object label members) ↔
      ∀ entry ∈ members, violates marker entry = false ∧ Respects marker entry.2 := by
  refine Node.everywhere_object.trans ⟨fun h entry hentry => ?_, fun h => ?_⟩
  · exact ⟨h.1 entry hentry, h.2 entry hentry⟩
  · exact ⟨fun entry hentry => (h entry hentry).1, fun entry hentry => (h entry hentry).2⟩

theorem violations_eq_nil_iff {n : Node} : violations marker n = [] ↔ Respects marker n := by
  rw [violations, List.flatMap_eq_nil_iff, Respects, Node.Everywhere, Node.nodes,
    List.forall_mem_map]
  refine forall₂_congr fun entry _ => ?_
  rw [List.map_eq_nil_iff, List.filter_eq_nil_iff]
  simp only [Bool.not_eq_true]

/-- Validation passes exactly the trees that respect the reservation. -/
theorem validate_eq_ok_iff (hm : marker ≠ "") (n : Node) :
    validate marker n = .ok () ↔ Respects marker n := by
  rw [← violations_eq_nil_iff, validate, if_neg hm]
  cases hv : violations marker n with
  | nil => exact iff_of_true rfl rfl
  | cons first rest =>
      refine iff_of_false ?_ (by simp)
      cases rest <;> simp [ConfigError.tryAggregate]

/-- Validation passes a tree that has no violation to gather, and any tree where no marker is
reserved. -/
theorem validate_eq_ok_iff_violations (n : Node) :
    validate marker n = .ok () ↔ marker = "" ∨ violations marker n = [] := by
  by_cases hm : marker = ""
  · simp [validate, hm]
  · rw [validate_eq_ok_iff hm, violations_eq_nil_iff, or_iff_right hm]

end ReservedKeys

end LayeredConfig
