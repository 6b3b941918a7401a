import StepChain.Json.Basic
/-!
# Laying one value over another

`Json.overlay base upper` joins two objects key by key and lets `upper` replace everything else, arrays included.
`Json.layered` lays a list of values over one another, the first lowest.

`Members.mergeWith` is the general form: every member of the second object is set in the first, its value made from
what the key held before.  Main statements: `get?_mergeWith`, and `get?_overlayMembers`, which says the same of
`overlay`.
-/
namespace StepChain

namespace Json

namespace Members

/-- Sets each member of the second object in the first, to a value made from the key, what it held before and the
member's value. -/
def mergeWith (combine : String → Option Json → Json → Json) (base : Object) :
    {low : Option String} → Members low → Object
  | _, .nil => base
  | _, .cons k _ v rest => (mergeWith combine base rest).insert k (combine k (base.get? k) v)

theorem get?_mergeWith (combine : String → Option Json → Json → Json) (base : Object) :
    {low : Option String} → (upper : Members low) → (key : String) →
    (mergeWith combine base upper).get? key =
      match upper.get? key with
      | some v => some (combine key (base.get? key) v)
      | none => base.get? key
  | _, .nil, key => rfl
  | _, .cons k _ v rest, key => by
    rw [mergeWith, get?_insert, get?_cons]
    by_cases h : key = k
    · subst h; simp
    · simp only [h, if_false]; exact get?_mergeWith combine base rest key

end Members

mutual

/-- Objects are joined key by key; anything else in `upper` replaces the base. -/
def overlay (base : Json) : Json → Json
  | .object upper =>
    match base with
    | .object o => .object (overlayMembers o upper)
    | _ => .object upper
  | upper => upper

def overlayMembers (base : Object) : {low : Option String} → Members low → Object
  | _, .nil => base
  | _, .cons k _ v rest =>
    (overlayMembers base rest).insert k
      (match base.get? k with
       | some b => overlay b v
       | none => v)

end

/-- A list of values laid over one another, the first lowest; `null` if there is none. -/
def layered (layers : List Json) : Json := layers.foldl overlay .null

/-- What a key holds after an overlay, from what it held and what is laid over it. -/
def overlayAt (base : Option Json) (upper : Json) : Json :=
  match base with
  | some b => b.overlay upper
  | none => upper

theorem overlayMembers_eq_mergeWith (base : Object) : {low : Option String} → (upper : Members low) →
    overlayMembers base upper = Members.mergeWith (fun _ => overlayAt) base upper
  | _, .nil => by rw [overlayMembers, Members.mergeWith]
  | _, .cons k _ v rest => by
    rw [overlayMembers, Members.mergeWith, overlayMembers_eq_mergeWith base rest]
    cases base.get? k <;> rfl

/-- A key that only one side has keeps that side's value; a key of both has the two laid over one another. -/
theorem get?_overlayMembers (base upper : Object) (key : String) :
    (overlayMembers base upper).get? key =
      match upper.get? key with
      | some v => some (overlayAt (base.get? key) v)
      | none => base.get? key := by
  rw [overlayMembers_eq_mergeWith, Members.get?_mergeWith]

theorem overlay_object (base upper : Object) :
    overlay (.object base) (.object upper) = .object (overlayMembers base upper) := by
  rw [overlay]

end Json

end StepChain
