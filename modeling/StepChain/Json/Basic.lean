import StepChain.Number.Basic
/-!
# JSON values

`Json` is the dynamic value that configurations are made of.  An object is a `Json.Members none`: a list of members
whose keys strictly increase, the order being part of the type.  Two objects with the same lookups are therefore equal
(`Json.Members.ext`), and a printer that walks the members writes the keys in order.

Main statements: `Json.Members.get?_insert`, `Json.Members.ext`.
-/
namespace StepChain

/-- `key` lies above the bound `low`; with no bound every key does. -/
def Above (low : Option String) (key : String) : Prop := ∀ k ∈ low, k < key

theorem above_none (key : String) : Above none key := fun _ h => nomatch h

theorem above_some {low key : String} : Above (some low) key ↔ low < key :=
  ⟨fun h => h low rfl, fun h _ hk => Option.some.inj hk ▸ h⟩

theorem Above.trans {low : Option String} {a b : String} (ha : Above low a) (hb : a < b) : Above low b :=
  fun k hk => String.lt_trans (ha k hk) hb

mutual

inductive Json where
  | null
  | bool (value : Bool)
  | number (value : Number)
  | string (value : String)
  | array (items : List Json)
  | object (members : Json.Members none)

/-- The members of an object, keys strictly increasing and all above `low`. -/
inductive Json.Members : Option String → Type where
  | nil {low : Option String} : Json.Members low
  | cons {low : Option String} (key : String) (above : Above low key) (value : Json)
      (rest : Json.Members (some key)) : Json.Members low

end

namespace Json

abbrev Object := Members none

instance : Inhabited Json := ⟨.null⟩

def object? : Json → Option Object
  | .object o => some o
  | _ => none

def isObject (j : Json) : Bool := j.object?.isSome

def isNull : Json → Bool
  | .null => true
  | _ => false

def string? : Json → Option String
  | .string s => some s
  | _ => none

def array? : Json → Option (List Json)
  | .array items => some items
  | _ => none

def bool? : Json → Option Bool
  | .bool b => some b
  | _ => none

namespace Members

variable {low : Option String}

instance : Inhabited (Members low) := ⟨.nil⟩

/-- The same members under a weaker bound. -/
def lower {key : String} (h : Above low key) : Members (some key) → Members low
  | .nil => .nil
  | .cons k hk v rest => .cons k (h.trans (above_some.1 hk)) v rest

def get? : {low : Option String} → Members low → String → Option Json
  | _, .nil, _ => none
  | _, .cons k _ v rest, key => if key = k then some v else rest.get? key

/-- Sets one key, in place if it is there. -/
def insertAbove : {low : Option String} → Members low → (key : String) → Above low key → Json → Members low
  | _, .nil, key, h, value => .cons key h value .nil
  | _, .cons k hk v rest, key, h, value =>
    if key = k then .cons k hk value rest
    else if hlt : key < k then .cons key h value (.cons k (above_some.2 hlt) v rest)
    else if hgt : k < key then .cons k hk v (rest.insertAbove key (above_some.2 hgt) value)
    else .cons k hk v rest

def insert (o : Object) (key : String) (value : Json) : Object := o.insertAbove key (above_none key) value

def erase : {low : Option String} → Members low → String → Members low
  | _, .nil, _ => .nil
  | _, .cons k hk v rest, key => if key = k then rest.lower hk else .cons k hk v (rest.erase key)

def toList : {low : Option String} → Members low → List (String × Json)
  | _, .nil => []
  | _, .cons k _ v rest => (k, v) :: rest.toList

def keys (ms : Members low) : List String := ms.toList.map (·.1)

def isEmpty : Members low → Bool
  | .nil => true
  | .cons .. => false

/-- The object with these members; of two with one key the later counts. -/
def ofList (entries : List (String × Json)) : Object := entries.foldl (fun o e => o.insert e.1 e.2) .nil

/-! ### Lookups -/

@[simp] theorem get?_nil (key : String) : (nil : Members low).get? key = none := rfl

theorem get?_cons (k : String) (hk : Above low k) (v : Json) (rest : Members (some k)) (key : String) :
    (cons k hk v rest).get? key = if key = k then some v else rest.get? key := rfl

theorem above_of_get? : {low : Option String} → (ms : Members low) → {key : String} → {v : Json} →
    ms.get? key = some v → Above low key
  | _, .nil, _, _, h => by simp at h
  | _, .cons k hk v rest, key, w, h => by
    rw [get?_cons] at h
    split at h
    · rename_i heq; exact heq ▸ hk
    · exact hk.trans (above_some.1 (above_of_get? rest h))

theorem get?_eq_none_of_not_lt {k : String} (ms : Members (some k)) {key : String} (h : ¬ k < key) :
    ms.get? key = none := by
  cases hg : ms.get? key with
  | none => rfl
  | some v => exact absurd (above_some.1 (above_of_get? ms hg)) h

theorem get?_insertAbove : {low : Option String} → (ms : Members low) → (key : String) → (h : Above low key) →
    (value : Json) → (other : String) →
    (ms.insertAbove key h value).get? other = if other = key then some value else ms.get? other
  | _, .nil, key, h, value, other => rfl
  | _, .cons k hk v rest, key, h, value, other => by
    unfold insertAbove
    split
    · rename_i heq; subst heq; rw [get?_cons, get?_cons]; split <;> simp_all
    · rename_i hne
      split
      · rfl
      · rename_i hnlt
        split
        · rw [get?_cons, get?_cons, get?_insertAbove rest]
          by_cases ho : other = k
          · subst ho; simp [Ne.symm hne]
          · simp [ho]
        · rename_i hngt
          exact absurd (String.le_antisymm (String.not_lt.1 hngt) (String.not_lt.1 hnlt)) hne

/-- After setting `key`, that key holds the value and every other key what it held. -/
@[simp] theorem get?_insert (o : Object) (key : String) (value : Json) (other : String) :
    (o.insert key value).get? other = if other = key then some value else o.get? other :=
  get?_insertAbove o key _ value other

/-- **Objects are equal when their lookups are.** -/
theorem ext : {low : Option String} → {a b : Members low} → (∀ key, a.get? key = b.get? key) → a = b
  | _, .nil, .nil, _ => rfl
  | _, .nil, .cons k _ v _, h => by simpa [get?_cons] using h k
  | _, .cons k _ v _, .nil, h => by simpa [get?_cons] using h k
  | _, .cons k hk v rest, .cons k' hk' v' rest', h => by
    have hkk : k = k' := by
      have h1 := h k
      have h2 := h k'
      rw [get?_cons, get?_cons] at h1 h2
      rw [if_pos rfl] at h1 h2
      by_cases heq : k = k'
      · exact heq
      · rw [if_neg heq] at h1
        rw [if_neg (Ne.symm heq)] at h2
        have a1 := above_some.1 (above_of_get? rest' h1.symm)
        have a2 := above_some.1 (above_of_get? rest h2)
        exact absurd (String.lt_trans a1 a2) (String.lt_irrefl _)
    subst hkk
    have hv : v = v' := by simpa [get?_cons] using h k
    subst hv
    have hrest : rest = rest' := ext fun key => by
      by_cases hkey : key = k
      · subst hkey
        rw [get?_eq_none_of_not_lt rest (String.lt_irrefl _), get?_eq_none_of_not_lt rest' (String.lt_irrefl _)]
      · simpa [get?_cons, hkey] using h key
    subst hrest
    rfl

end Members

end Json

end StepChain
