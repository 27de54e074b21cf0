import LayeredConfig.Proofs.Json.KeyOrder
import LayeredConfig.Proofs.Merge.Regrouping

/-!
# Values that cover a layer

A value covers a layer when it already says whatever the layer says, at every path. For documents
that is exactly when laying the layer over the value changes nothing (`overlay_eq_self_iff`), and
whatever a layer has been laid over covers it (`covers_overlay`); so a layer that is laid on once
more changes nothing (`overlay_overlay_self`). Put under a document that covers it, a layer changes
the order of keys and nothing else (`sorted_overlay_of_covers`).
-/

namespace LayeredConfig

namespace Json

variable {a b : Json}

/-- Wherever the layer leads, the value leads to the same, or both lead to objects. -/
def Covers (base layer : Json) : Prop :=
  ∀ path x, layer.at? path = some x →
    ∃ y, base.at? path = some y ∧ (y = x ∨ y.type = .object ∧ x.type = .object)

theorem covers_self (v : Json) : v.Covers v := fun _ x h => ⟨x, h, .inl rfl⟩

theorem Covers.type_eq (h : a.Covers b) : a.type = b.type := by
  obtain ⟨y, hy, hsame⟩ := h [] b rfl
  obtain rfl : a = y := Option.some.inj hy
  rcases hsame with rfl | ⟨ha, hb⟩
  · rfl
  · rw [ha, hb]

theorem covers_iff_of_not_object (hb : b.type ≠ .object) : a.Covers b ↔ a = b := by
  constructor
  · intro h
    obtain ⟨y, hy, hsame⟩ := h [] b rfl
    obtain rfl : a = y := Option.some.inj hy
    exact hsame.resolve_right fun h => hb h.2
  · rintro rfl
    exact covers_self a

theorem covers_object_iff {members upper : List (String × Json)} :
    (object members).Covers (object upper) ↔
      ∀ key w, Members.get? key upper = some w →
        ∃ v, Members.get? key members = some v ∧ v.Covers w := by
  constructor
  · intro h key w hw
    have hlead (path : List String) : (object upper).at? (key :: path) = w.at? path := by
      rw [at?_object_cons, hw, Option.bind_some]
    obtain ⟨v, hv, -⟩ := h [key] w (hlead [])
    rw [at?_object_cons, Option.bind_eq_some_iff] at hv
    obtain ⟨held, hheld, -⟩ := hv
    refine ⟨held, hheld, fun path x hx => ?_⟩
    obtain ⟨y, hy, hsame⟩ := h (key :: path) x ((hlead path).trans hx)
    rw [at?_object_cons, hheld, Option.bind_some] at hy
    exact ⟨y, hy, hsame⟩
  · intro h path x hx
    cases path with
    | nil =>
        obtain rfl := Option.some.inj hx
        exact ⟨object members, rfl, .inr ⟨rfl, rfl⟩⟩
    | cons key rest =>
        rw [at?_object_cons, Option.bind_eq_some_iff] at hx
        obtain ⟨w, hw, hx⟩ := hx
        obtain ⟨v, hv, hcovers⟩ := h key w hw
        obtain ⟨y, hy, hsame⟩ := hcovers rest x hx
        refine ⟨y, ?_, hsame⟩
        rw [at?_object_cons, hv, Option.bind_some, hy]

/-! ### Layers over and under what covers them -/

/-- A value with a layer over it covers the layer. -/
theorem covers_overlay (a : Json) (b : Document) : (a.overlay b).Covers b := by
  induction b using Document.induct generalizing a with
  | object upper h ih =>
      cases a with
      | object members =>
          rw [overlay_object, covers_object_iff]
          intro key w hw
          rw [get?_overlayMembers h.members, hw]
          cases Members.get? key members with
          | none => exact ⟨w, rfl, covers_self w⟩
          | some v => exact ⟨v.overlay w, rfl, ih (key, w) (Members.mem_of_get?_eq_some hw) v⟩
      | _ =>
          rw [overlay_of_base_not_object rfl]
          exact covers_self _
  | other b hb =>
      rw [overlay_of_layer_not_object (members?_eq_none_iff.2 hb)]
      exact covers_self _

/-- Laying a layer over a document changes nothing exactly when the document covers the layer. -/
theorem overlay_eq_self_iff (a b : Document) : (a : Json).overlay b = a ↔ (a : Json).Covers b := by
  induction b using Document.induct generalizing a with
  | object upper hb ih =>
      obtain ⟨a, ha⟩ := a
      by_cases hobj : a.type = .object
      · cases a with
        | object members =>
            rw [overlay_eq_unionWith ha hb, object.injEq,
              Members.unionWith_eq_left_iff ha.members, covers_object_iff]
            refine forall_congr' fun key => forall_congr' fun w => forall_congr' fun hw =>
              exists_congr fun v => and_congr_right fun hv => ?_
            have hmv := Members.mem_of_get?_eq_some hv
            exact ih (key, w) (Members.mem_of_get?_eq_some hw) ⟨v, ha.member hmv⟩
        | _ => cases hobj
      · rw [overlay_of_base_not_object (members?_eq_none_iff.2 hobj)]
        constructor
        · rintro rfl
          exact covers_self _
        · exact fun h => absurd h.type_eq hobj
  | other b hb =>
      rw [overlay_of_layer_not_object (members?_eq_none_iff.2 hb), covers_iff_of_not_object hb,
        eq_comm]

/-- A layer that is put under a document that covers it changes nothing but the order of keys. -/
theorem sorted_overlay_of_covers {a b : Document} (h : (a : Json).Covers b) :
    ((b : Json).overlay a).sorted = (a : Json).sorted := by
  induction b using Document.induct generalizing a with
  | object upper hb ih =>
      obtain ⟨a, ha⟩ := a
      cases a with
      | object members =>
          rw [overlay_eq_unionWith hb ha,
            sorted_object_eq_iff (hb.members.unionWith ha.members) ha.members]
          intro key
          rw [Members.get?_unionWith]
          cases hw : Members.get? key upper with
          | none => rw [Option.merge_none_left]
          | some w =>
              obtain ⟨v, hv, hcovers⟩ := covers_object_iff.1 h key w hw
              have hmv := Members.mem_of_get?_eq_some hv
              have hsorted : (w.overlay v).sorted = v.sorted :=
                ih (key, w) (Members.mem_of_get?_eq_some hw) (a := ⟨v, ha.member hmv⟩) hcovers
              rw [hv, Option.merge_some_some, Option.map_some, Option.map_some, hsorted]
      | _ => cases h.type_eq
  | other b hb => rw [overlay_of_base_not_object (members?_eq_none_iff.2 hb)]

theorem overlay_self (a : Document) : (a : Json).overlay a = a :=
  (overlay_eq_self_iff a a).2 (covers_self a)

theorem overlay_overlay_self (a b : Document) :
    ((a : Json).overlay b).overlay b = (a : Json).overlay b :=
  (overlay_eq_self_iff (a.overlay b) b).2 (covers_overlay a b)

theorem overlay_assoc_self (a b : Document) :
    ((b : Json).overlay a).overlay b = (b : Json).overlay ((a : Json).overlay b) := by
  refine (overlay_overlay_eq_iff b a b).2 fun path x y z h => ?_
  -- Both outer values are `b`, so at a contested path they hold one object.
  obtain rfl : x = z := Option.some.inj (h.lower.symm.trans h.upper)
  exact overlay_self ⟨x, b.2.at? h.lower⟩

namespace Document

/-- Layers that are covered can be laid on any number of times. -/
theorem overlayAll_replicate {a b : Document} (h : (a : Json).Covers b) (n : Nat) :
    a.overlayAll (List.replicate n b) = a := by
  have hab : a.overlay b = a := Subtype.ext ((overlay_eq_self_iff a b).2 h)
  induction n with
  | zero => rfl
  | succ n ih =>
      rw [List.replicate_succ, overlayAll, List.foldl_cons, hab]
      exact ih

/-- Repeating the last layer of a fold changes nothing. -/
theorem overlayAll_append_replicate (base : Document) (layers : List Document) (last : Document)
    (n : Nat) :
    base.overlayAll (layers ++ List.replicate (n + 1) last) =
      base.overlayAll (layers ++ [last]) := by
  rw [overlayAll, overlayAll, List.foldl_append, List.foldl_append, List.replicate_succ]
  exact overlayAll_replicate (covers_overlay _ last) n

end Document

end Json

end LayeredConfig
