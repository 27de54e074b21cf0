import LayeredConfig.Json.Basic

/-!
# Laying one value over another

A layer is laid over a base value: objects combine member by member, the base's members first
and in place, the layer's new members behind them; any other pair leaves the layer alone.
-/

namespace LayeredConfig

namespace Json

mutual

/-- The value `base` with `layer` laid over it. -/
def overlay (base layer : Json) : Json :=
  match base, layer with
  | .object members, .object upper => .object (overlayMembers members upper)
  | _, layer => layer

/-- Members with those of a layer laid over them one after the other. -/
def overlayMembers (members : List (String × Json)) :
    List (String × Json) → List (String × Json)
  | [] => members
  | (key, value) :: rest =>
    let combined := match Members.get? key members with
      | some held => overlay held value
      | none => value
    overlayMembers (Members.insert key combined members) rest

end

/-- The base value under all layers, the last one on top. -/
def overlayAll (base : Json) (layers : List Json) : Json := layers.foldl overlay base

theorem overlay_object (members upper : List (String × Json)) :
    overlay (.object members) (.object upper) = .object (overlayMembers members upper) := by
  simp [overlay]

/-- What is not an object replaces whatever it is laid over. -/
theorem overlay_of_layer_not_object {base layer : Json} (h : layer.members? = none) :
    overlay base layer = layer := by
  cases base <;> cases layer <;> simp_all [overlay, members?]

/-- A base that is not an object is replaced by any layer. -/
theorem overlay_of_base_not_object {base layer : Json} (h : base.members? = none) :
    overlay base layer = layer := by
  cases base <;> cases layer <;> simp_all [overlay, members?]

@[simp] theorem overlayMembers_nil (members : List (String × Json)) :
    overlayMembers members [] = members := by simp [overlayMembers]

@[simp] theorem overlayAll_nil (base : Json) : overlayAll base [] = base := rfl

end Json

end LayeredConfig
