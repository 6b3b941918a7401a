import StepChain.Proofs.Path.Components
/-!
# The normal form of a path

The normal form leads where the path leads, from every directory (`walk_normal`).  A relative path that never climbs
above its start only adds names: it leads to these names below every directory (`walk_nonClimbing`), and joined to `p`
it has the normal form of `p` and then these names (`normalComponents_join`).
-/
namespace StepChain

/-- Where a stack of components leads, its last component first. -/
def Component.walkStack (dir : List String) (stack : List Component) : List String :=
  stack.foldr (fun c place => c.walk place) dir

namespace Component

theorem settle_name (stack : List Component) (s : String) : settle stack (.name s) = .name s :: stack := by
  cases stack with
  | nil => rfl
  | cons top rest => cases top <;> rfl

theorem settle_here (stack : List Component) : settle stack .here = stack := by
  cases stack with
  | nil => rfl
  | cons top rest => cases top <;> rfl

/-- **Settling a component is walking it.** -/
theorem walkStack_settle (dir : List String) (stack : List Component) (c : Component) :
    walkStack dir (settle stack c) = c.walk (walkStack dir stack) := by
  cases c with
  | name s => rw [settle_name]; rfl
  | here => rw [settle_here]; rfl
  | root => cases stack with
    | nil => rfl
    | cons top rest => cases top <;> rfl
  | up => cases stack with
    | nil => rfl
    | cons top rest => cases top with
      | name s => simp [settle, walkStack, walk]
      | root => rfl
      | here => rfl
      | up => rfl

theorem walkStack_foldl_settle (dir : List String) : ∀ (cs stack : List Component),
    walkStack dir (cs.foldl settle stack) = cs.foldl walk (walkStack dir stack)
  | [], _ => rfl
  | c :: cs, stack => by
    rw [List.foldl_cons, walkStack_foldl_settle dir cs, walkStack_settle, List.foldl_cons]

theorem mem_settle {stack : List Component} {c x : Component} (h : x ∈ settle stack c) : x ∈ stack ∨ x = c := by
  unfold settle at h
  split at h
  · exact .inl h
  · exact .inl (List.mem_cons_of_mem _ h)
  · exact .inl h
  · exact (List.mem_cons.1 h).symm

theorem mem_foldl_settle : ∀ {cs stack : List Component} {x : Component},
    x ∈ cs.foldl settle stack → x ∈ stack ∨ x ∈ cs
  | [], _, _, h => .inl h
  | c :: cs, stack, x, h => by
    have ih : x ∈ settle stack c ∨ x ∈ cs := mem_foldl_settle h
    rcases ih with h | h
    · rcases mem_settle h with h | rfl
      · exact .inl h
      · exact .inr List.mem_cons_self
    · exact .inr (List.mem_cons_of_mem _ h)

end Component

namespace Path

open Component (settle walkStack)

/-! ### Where a normal form leads -/

theorem walk_ofComponent {c : Component} (hc : ∀ s, c = .name s → IsName s) (dir : List String) :
    (ofComponent c).walk dir = c.walk dir := by
  cases c with
  | root => rw [walk, show (ofComponent .root).components = [.root] by decide]; rfl
  | here => rw [walk, show (ofComponent .here).components = [.here] by decide]; rfl
  | up => rw [walk, show (ofComponent .up).components = [.up] by decide]; rfl
  | name s => exact walk_name (hc s rfl) dir

theorem ofComponents_of_ne_nil {cs : List Component} (h : cs ≠ []) :
    ofComponents cs = cs.foldl (fun p c => p.join (ofComponent c)) ⟨""⟩ := by
  cases cs with
  | nil => exact absurd rfl h
  | cons c cs => rfl

theorem walk_foldl_join (dir : List String) : ∀ (cs : List Component) (p : Path), (∀ s, .name s ∈ cs → IsName s) →
    (cs.foldl (fun p c => p.join (ofComponent c)) p).walk dir = cs.foldl Component.walk (p.walk dir)
  | [], _, _ => rfl
  | c :: cs, p, h => by
    have hc : ∀ s, c = .name s → IsName s := fun s hs => h s (by rw [hs]; exact List.mem_cons_self)
    rw [List.foldl_cons, walk_foldl_join dir cs _ (fun s hs => h s (List.mem_cons_of_mem _ hs)), walk_join,
      walk_ofComponent hc, List.foldl_cons]

theorem walk_ofComponents {cs : List Component} (h : ∀ s, .name s ∈ cs → IsName s) (dir : List String) :
    (ofComponents cs).walk dir = cs.foldl Component.walk dir := by
  by_cases hcs : cs = []
  · rw [hcs, walk, show (ofComponents []).components = [.here] by decide]
    rfl
  · rw [ofComponents_of_ne_nil hcs, walk_foldl_join dir cs _ h]
    rfl

theorem isName_of_mem_normalComponents {p : Path} {s : String} (h : .name s ∈ p.normalComponents) : IsName s := by
  unfold normalComponents at h
  rw [List.mem_reverse] at h
  rcases Component.mem_foldl_settle h with h | h
  · cases h
  · exact isName_of_mem_components h

/-- **The normal form of a path leads where the path leads.** -/
theorem walk_normal (p : Path) (dir : List String) : p.normal.walk dir = p.walk dir := by
  rw [normal, walk_ofComponents (fun s hs => isName_of_mem_normalComponents hs), normalComponents, List.foldl_reverse]
  exact Component.walkStack_foldl_settle dir p.components []

theorem fileName?_normal {p : Path} {s : String} {before : List Component}
    (h : p.normalComponents = before ++ [.name s]) : p.normal.fileName? = some s := by
  have hmem : .name s ∈ p.normalComponents := by rw [h]; simp
  have hs : IsName s := isName_of_mem_normalComponents hmem
  rw [normal, h, ofComponents_of_ne_nil (by simp), List.foldl_append, List.foldl_cons, List.foldl_nil]
  exact fileName?_join _ hs

/-! ### Paths that never climb above their start -/

end Path

def Component.isName : Component → Bool
  | .name _ => true
  | _ => false

/-- From `depth` names below a start, no beginning of these components leads above the start. -/
def Component.StaysBelow (depth : Nat) (cs : List Component) : Prop :=
  ∀ n ≤ cs.length, (cs.take n).count .up ≤ depth + (cs.take n).countP isName

/-- A path of which no beginning has more `..` than names. -/
def Path.NonClimbing (p : Path) : Prop := Component.StaysBelow 0 p.components

instance (p : Path) : Decidable p.NonClimbing := Nat.decidableBallLE _ _

namespace Component

theorem StaysBelow.tail_here {depth : Nat} {cs : List Component} (h : StaysBelow depth (.here :: cs)) :
    StaysBelow depth cs := fun n hn => by
  have := h (n + 1) (Nat.succ_le_succ hn)
  simpa [isName] using this

theorem StaysBelow.tail_name {depth : Nat} {s : String} {cs : List Component} (h : StaysBelow depth (.name s :: cs)) :
    StaysBelow (depth + 1) cs := fun n hn => by
  have := h (n + 1) (Nat.succ_le_succ hn)
  simp only [List.take_succ_cons, List.count_cons, List.countP_cons, isName] at this
  simp at this
  omega

theorem StaysBelow.tail_up {depth : Nat} {cs : List Component} (h : StaysBelow depth (.up :: cs)) :
    0 < depth ∧ StaysBelow (depth - 1) cs := by
  have hpos : 0 < depth := by
    have := h 1 (by simp)
    simp [isName] at this
    omega
  refine ⟨hpos, fun n hn => ?_⟩
  have := h (n + 1) (Nat.succ_le_succ hn)
  simp only [List.take_succ_cons, List.count_cons, List.countP_cons, isName] at this
  simp at this
  omega

/-- Components that stay below a start settle to names above whatever the stack holds. -/
theorem foldl_settle_of_staysBelow (stack : List Component) : ∀ (cs : List Component) (names : List String),
    .root ∉ cs → StaysBelow names.length cs →
    cs.foldl settle (names.reverse.map .name ++ stack) = (cs.foldl walk names).reverse.map .name ++ stack
  | [], _, _, _ => rfl
  | c :: cs, names, hroot, h => by
    rw [List.mem_cons, not_or] at hroot
    rw [List.foldl_cons, List.foldl_cons]
    cases c with
    | root => exact absurd rfl hroot.1
    | here =>
      rw [settle_here]
      exact foldl_settle_of_staysBelow stack cs names hroot.2 h.tail_here
    | name s =>
      have ih := foldl_settle_of_staysBelow stack cs (names ++ [s]) hroot.2 (by simpa using h.tail_name)
      rw [List.reverse_concat, List.map_cons, List.cons_append] at ih
      rw [settle_name]
      exact ih
    | up =>
      obtain ⟨hpos, hrest⟩ := h.tail_up
      rcases List.eq_nil_or_concat names with rfl | ⟨front, last, rfl⟩
      · exact absurd hpos (Nat.lt_irrefl 0)
      · -- the name that `..` takes away is one of those walked here, not one of the stack below
        have ih := foldl_settle_of_staysBelow stack cs front hroot.2 (by simpa using hrest)
        rw [List.concat_eq_append, List.reverse_concat, List.map_cons, List.cons_append, walk, List.dropLast_concat]
        exact ih

/-- Components that stay below a start lead to the same names below every directory. -/
theorem foldl_walk_of_staysBelow (dir : List String) : ∀ (cs : List Component) (names : List String),
    .root ∉ cs → StaysBelow names.length cs → cs.foldl walk (dir ++ names) = dir ++ cs.foldl walk names
  | [], _, _, _ => rfl
  | c :: cs, names, hroot, h => by
    rw [List.mem_cons, not_or] at hroot
    rw [List.foldl_cons, List.foldl_cons]
    cases c with
    | root => exact absurd rfl hroot.1
    | here => exact foldl_walk_of_staysBelow dir cs names hroot.2 h.tail_here
    | name s =>
      rw [walk, walk, List.append_assoc]
      exact foldl_walk_of_staysBelow dir cs (names ++ [s]) hroot.2 (by simpa using h.tail_name)
    | up =>
      obtain ⟨hpos, hrest⟩ := h.tail_up
      have hne : names ≠ [] := List.ne_nil_of_length_pos hpos
      rw [walk, walk, List.dropLast_append_of_ne_nil hne]
      exact foldl_walk_of_staysBelow dir cs names.dropLast hroot.2 (by simpa using hrest)

end Component

namespace Path

open Component (settle)

theorem root_not_mem_parts (p : Path) : .root ∉ p.parts := fun h => by
  rcases up_or_name_of_mem_parts h with h | ⟨s, h⟩ <;> cases h

theorem IsName.nonClimbing {s : String} (h : IsName s) : NonClimbing ⟨s⟩ := by
  intro n hn
  rw [h.components] at hn ⊢
  cases n with
  | zero => simp
  | succ n => simp [Component.isName]

theorem NonClimbing.parts {p : Path} (h : p.NonClimbing) (hrel : p.isAbsolute = false) :
    Component.StaysBelow 0 p.parts := by
  rw [NonClimbing, components_eq] at h
  unfold lead at h
  rw [hrel, if_neg (by decide)] at h
  split at h
  · exact h.tail_here
  · exact h

/-- The names that a path leads to below its start. -/
def below (p : Path) : List String := p.walk []

/-- **A relative path that never climbs only adds names.** -/
theorem walk_nonClimbing {p : Path} (h : p.NonClimbing) (hrel : p.isAbsolute = false) (dir : List String) :
    p.walk dir = dir ++ p.below := by
  have hfold := Component.foldl_walk_of_staysBelow dir p.parts [] (root_not_mem_parts p) (h.parts hrel)
  rw [below, walk_eq, walk_eq, hrel]
  simpa using hfold

theorem normalComponents_eq (p : Path) :
    p.normalComponents = (p.parts.foldl settle (if p.isAbsolute then [.root] else [])).reverse := by
  rw [normalComponents, components_eq, List.foldl_append]
  congr 2
  unfold lead
  split
  · rfl
  · split <;> rfl

/-- **The normal form of a joined path that never climbs** is that of the path it is joined to and then names. -/
theorem normalComponents_join {p q : Path} (hq : q.NonClimbing) (hrel : q.isAbsolute = false) :
    (p.join q).normalComponents = p.normalComponents ++ q.below.map .name := by
  have hfold := Component.foldl_settle_of_staysBelow p.normalComponents.reverse q.parts [] (root_not_mem_parts q)
    (hq.parts hrel)
  rw [normalComponents_eq, isAbsolute_join hrel, parts_join hrel, List.foldl_append]
  rw [normalComponents_eq p, List.reverse_reverse] at hfold
  rw [normalComponents_eq p, below, walk_eq, hrel]
  simpa using congrArg List.reverse hfold

theorem normalComponents_join_name (p : Path) {s : String} (hs : IsName s) :
    (p.join ⟨s⟩).normalComponents = p.normalComponents ++ [.name s] := by
  rw [normalComponents_eq, isAbsolute_join hs.not_isAbsolute, parts_join hs.not_isAbsolute, hs.parts,
    List.foldl_append, List.foldl_cons, List.foldl_nil, Component.settle_name, List.reverse_cons,
    ← normalComponents_eq]

/-- **A file keeps its name in the normal form.** -/
theorem fileName?_normal_join (p : Path) {s : String} (hs : IsName s) : (p.join ⟨s⟩).normal.fileName? = some s :=
  fileName?_normal (normalComponents_join_name p hs)

theorem isAbsolute_rootless (reference : String) : Path.isAbsolute ⟨rootless reference⟩ = false := by
  unfold isAbsolute rootless
  rw [String.toList_ofList]
  cases hs : reference.toList.dropWhile (fun c => c = '/' ∨ c = '\\') with
  | nil => rfl
  | cons c rest =>
    have hc := List.head?_dropWhile_not (fun c => decide (c = '/' ∨ c = '\\')) reference.toList
    rw [hs] at hc
    simp only [List.head?_cons, decide_eq_false_iff_not, not_or] at hc
    simpa using hc.1

end Path
end StepChain
