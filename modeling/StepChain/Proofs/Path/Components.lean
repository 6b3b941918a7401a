import StepChain.Path.Normal
/-!
# Components of joined paths

Joining writes one path after another, so `p.join q` has the parts of `p` and then those of a relative `q`
(`parts_join`), and walking `p.join q` is walking `p` and then `q` (`walk_join`).  A name that is joined is the file
name (`fileName?_join`), and every file name is an ordinary name (`isName_of_fileName?`).
-/
namespace StepChain
namespace Path

theorem mk_text (p : Path) : (⟨p.text⟩ : Path) = p := rfl

/-! ### Texts between slashes -/

theorem splitSlashes_ne_nil (s : List Char) : splitSlashes s ≠ [] := by
  cases s with
  | nil => simp [splitSlashes]
  | cons c rest =>
    unfold splitSlashes
    split
    · simp
    · split <;> simp

theorem splitSlashes_append_slash : ∀ (a b : List Char), splitSlashes (a ++ '/' :: b) = splitSlashes a ++ splitSlashes b
  | [], b => by simp [splitSlashes]
  | c :: a, b => by
    have ih := splitSlashes_append_slash a b
    rw [List.cons_append, splitSlashes, splitSlashes, ih]
    by_cases hc : c = '/'
    · rw [if_pos hc, if_pos hc, List.cons_append]
    · rw [if_neg hc, if_neg hc]
      cases ha : splitSlashes a with
      | nil => exact absurd ha (splitSlashes_ne_nil a)
      | cons piece pieces => rfl

theorem splitSlashes_of_not_mem : ∀ (s : List Char), '/' ∉ s → splitSlashes s = [s]
  | [], _ => rfl
  | c :: rest, h => by
    rw [List.mem_cons, not_or] at h
    rw [splitSlashes, if_neg (Ne.symm h.1), splitSlashes_of_not_mem rest h.2]

theorem not_mem_of_mem_splitSlashes : ∀ (s : List Char) {piece : List Char}, piece ∈ splitSlashes s → '/' ∉ piece
  | [], piece, h => by
    rw [splitSlashes, List.mem_singleton] at h
    simp [h]
  | c :: rest, piece, h => by
    have ih := @not_mem_of_mem_splitSlashes rest
    rw [splitSlashes] at h
    by_cases hc : c = '/'
    · rw [if_pos hc] at h
      rcases List.mem_cons.1 h with rfl | h
      · simp
      · exact ih h
    · rw [if_neg hc] at h
      cases hr : splitSlashes rest with
      | nil => exact absurd hr (splitSlashes_ne_nil rest)
      | cons first pieces =>
        rw [hr] at h ih
        rcases List.mem_cons.1 h with rfl | h
        · rw [List.mem_cons, not_or]
          exact ⟨Ne.symm hc, ih List.mem_cons_self⟩
        · exact ih (List.mem_cons_of_mem _ h)

/-! ### Names -/

/-- An ordinary name: one segment, neither empty nor `.` nor `..`. -/
def IsName (s : String) : Prop := componentOf? s = some (.name s) ∧ '/' ∉ s.toList

instance (s : String) : Decidable (IsName s) := inferInstanceAs (Decidable (_ ∧ _))

theorem eq_of_componentOf? {segment s : String} (h : componentOf? segment = some (.name s)) : segment = s := by
  unfold componentOf? at h
  split at h
  · cases h
  · split at h
    · cases h
    · exact Component.name.inj (Option.some.inj h)

theorem componentOf?_eq_up_or_name {segment : String} {c : Component} (h : componentOf? segment = some c) :
    c = .up ∨ ∃ s, c = .name s := by
  unfold componentOf? at h
  split at h
  · cases h
  · split at h
    · exact .inl (Option.some.inj h).symm
    · exact .inr ⟨segment, (Option.some.inj h).symm⟩

theorem IsName.segments {s : String} (h : IsName s) : Path.segments ⟨s⟩ = [s] := by
  rw [Path.segments, splitSlashes_of_not_mem _ h.2]
  simp

theorem IsName.not_isAbsolute {s : String} (h : IsName s) : Path.isAbsolute ⟨s⟩ = false := by
  unfold isAbsolute
  cases hs : s.toList with
  | nil => rfl
  | cons c rest =>
    have hc : c ≠ '/' := fun heq => h.2 (by rw [hs, heq]; exact List.mem_cons_self)
    simpa using hc

/-- There are names longer than any bound that no stripping of slashes changes. -/
theorem exists_longName (n : Nat) : ∃ file, IsName file ∧ rootless file = file ∧ n < file.toList.length := by
  have htext : (String.ofList (List.replicate (n + 1) 'x')).toList = 'x' :: List.replicate n 'x' :=
    String.toList_ofList
  generalize String.ofList (List.replicate (n + 1) 'x') = file at htext
  have hhead : file.toList.head? = some 'x' := by rw [htext]; rfl
  refine ⟨file, ⟨?_, ?_⟩, ?_, ?_⟩
  · have hne : ∀ other : String, other.toList.head? ≠ some 'x' → file ≠ other := fun other h heq => h (heq ▸ hhead)
    rw [componentOf?, if_neg, if_neg (hne ".." (by decide))]
    rintro (h | h)
    · exact hne "" (by decide) h
    · exact hne "." (by decide) h
  · rw [htext]
    simp
  · apply String.toList_inj.1
    rw [rootless, String.toList_ofList, htext]
    simp
  · rw [htext]
    simp

/-! ### Components -/

/-- What the segments of a path say, the root and a leading `.` aside. -/
def parts (p : Path) : List Component := p.segments.filterMap componentOf?

/-- What stands before the parts: the root, a leading `.` or nothing. -/
def lead (p : Path) : List Component :=
  if p.isAbsolute then [.root] else if p.segments.head? = some "." then [.here] else []

theorem components_eq (p : Path) : p.components = p.lead ++ p.parts := by
  unfold components lead parts
  split
  · rfl
  · split
    · rename_i rest hs
      simp [hs, componentOf?]
    · rename_i hs
      rw [if_neg]
      · rfl
      · intro hhead
        cases hseg : p.segments with
        | nil => simp [hseg] at hhead
        | cons first rest =>
          rw [hseg] at hhead
          exact hs rest (by rw [hseg, Option.some.inj hhead])

theorem isName_of_mem_parts {p : Path} {s : String} (h : .name s ∈ p.parts) : IsName s := by
  obtain ⟨segment, hmem, hseg⟩ := List.mem_filterMap.1 h
  obtain rfl := eq_of_componentOf? hseg
  obtain ⟨piece, hpiece, rfl⟩ := List.mem_map.1 hmem
  refine ⟨hseg, ?_⟩
  rw [String.toList_ofList]
  exact not_mem_of_mem_splitSlashes _ hpiece

theorem up_or_name_of_mem_parts {p : Path} {c : Component} (h : c ∈ p.parts) : c = .up ∨ ∃ s, c = .name s := by
  obtain ⟨segment, -, hseg⟩ := List.mem_filterMap.1 h
  exact componentOf?_eq_up_or_name hseg

theorem isName_of_mem_components {p : Path} {s : String} (h : .name s ∈ p.components) : IsName s := by
  rw [components_eq, List.mem_append] at h
  refine isName_of_mem_parts (h.resolve_left fun hl => ?_)
  unfold lead at hl
  split at hl
  · simp at hl
  · split at hl <;> simp at hl

theorem IsName.parts {s : String} (h : IsName s) : Path.parts ⟨s⟩ = [.name s] := by
  rw [Path.parts, h.segments, List.filterMap_cons_some h.1, List.filterMap_nil]

theorem IsName.components {s : String} (h : IsName s) : Path.components ⟨s⟩ = [.name s] := by
  have hdot : s ≠ "." := fun heq => by
    have := h.1
    rw [heq] at this
    cases this
  rw [components_eq, h.parts, lead, h.not_isAbsolute, h.segments]
  simp [hdot]

/-! ### Joining -/

theorem segments_slash (a b : String) : Path.segments ⟨a ++ "/" ++ b⟩ = Path.segments ⟨a⟩ ++ Path.segments ⟨b⟩ := by
  have htext : (a ++ "/" ++ b).toList = a.toList ++ '/' :: b.toList := by simp
  rw [segments, segments, segments, htext, splitSlashes_append_slash, List.map_append]

theorem join_of_isAbsolute {p q : Path} (hq : q.isAbsolute = true) : p.join q = q := by
  rw [join, if_pos (.inl hq)]

theorem join_of_isEmpty {p q : Path} (hp : p.isEmpty = true) : p.join q = q := by
  rw [join, if_pos (.inr hp)]

theorem eq_of_isEmpty {p : Path} (h : p.isEmpty = true) : p = ⟨""⟩ := by
  cases p with
  | mk text =>
    have htext : text.toList = [] := List.isEmpty_iff.1 h
    rw [show text = "" from String.toList_inj.1 htext]

theorem isAbsolute_join {p q : Path} (hq : q.isAbsolute = false) : (p.join q).isAbsolute = p.isAbsolute := by
  by_cases hp : p.isEmpty = true
  · rw [join_of_isEmpty hp, hq, eq_of_isEmpty hp]
    rfl
  · have hne : p.text.toList ≠ [] := fun hnil => hp (List.isEmpty_iff.2 hnil)
    unfold join
    rw [hq, if_neg (by simp [hp])]
    obtain ⟨c, rest, htext⟩ := List.exists_cons_of_ne_nil hne
    unfold isAbsolute
    split <;> simp [htext]

theorem parts_of_getLast? {p : Path} (h : p.text.toList.getLast? = some '/') :
    ∃ q : Path, p.text = q.text ++ "/" ∧ p.parts = q.parts := by
  obtain ⟨front, hfront⟩ := List.getLast?_eq_some_iff.1 h
  have htext : p.text = String.ofList front ++ "/" := by
    apply String.toList_inj.1
    rw [hfront]
    simp
  refine ⟨⟨String.ofList front⟩, htext, ?_⟩
  have hseg : p.segments = Path.segments ⟨String.ofList front⟩ ++ [""] := by
    rw [segments, segments, hfront, splitSlashes_append_slash, List.map_append, String.toList_ofList]
    rfl
  rw [parts, parts, hseg, List.filterMap_append]
  simp [componentOf?]

theorem parts_join {p q : Path} (hq : q.isAbsolute = false) : (p.join q).parts = p.parts ++ q.parts := by
  by_cases hp : p.isEmpty = true
  · rw [join_of_isEmpty hp, eq_of_isEmpty hp]
    rfl
  · unfold join
    rw [hq, if_neg (by simp [hp])]
    split
    · rename_i hlast
      obtain ⟨r, htext, hparts⟩ := parts_of_getLast? hlast
      rw [htext, hparts, parts, segments_slash, List.filterMap_append]
      rfl
    · rw [parts, segments_slash, List.filterMap_append]
      rfl

/-- **A name that is joined comes last.** -/
theorem components_join_name (p : Path) {s : String} (hs : IsName s) :
    ∃ before, (p.join ⟨s⟩).components = before ++ [.name s] := by
  refine ⟨(p.join ⟨s⟩).lead ++ p.parts, ?_⟩
  rw [components_eq, parts_join hs.not_isAbsolute, hs.parts, List.append_assoc]

theorem fileName?_of_components {p : Path} {s : String} {before : List Component}
    (h : p.components = before ++ [.name s]) : p.fileName? = some s := by
  rw [fileName?, h, List.getLast?_concat]

theorem fileName?_join (p : Path) {s : String} (hs : IsName s) : (p.join ⟨s⟩).fileName? = some s := by
  obtain ⟨before, h⟩ := components_join_name p hs
  exact fileName?_of_components h

theorem isName_of_fileName? {p : Path} {s : String} (h : p.fileName? = some s) : IsName s := by
  unfold fileName? at h
  split at h
  · rename_i name hlast
    obtain rfl := Option.some.inj h
    exact isName_of_mem_components (List.mem_of_getLast? hlast)
  · cases h

/-! ### Walking -/

/-- The parts alone decide where a path leads, once it is known where to start. -/
theorem walk_eq (p : Path) (dir : List String) :
    p.walk dir = p.parts.foldl Component.walk (if p.isAbsolute then [] else dir) := by
  rw [walk, components_eq, List.foldl_append]
  congr 1
  unfold lead
  split
  · rfl
  · split <;> rfl

/-- **Walking a joined path is walking one path and then the other.** -/
theorem walk_join (p q : Path) (dir : List String) : (p.join q).walk dir = q.walk (p.walk dir) := by
  by_cases hq : q.isAbsolute = true
  · rw [join_of_isAbsolute hq, walk_eq, walk_eq, if_pos hq, if_pos hq]
  · have hrel : q.isAbsolute = false := Bool.eq_false_iff.2 hq
    rw [walk_eq, walk_eq q, isAbsolute_join hrel, parts_join hrel, List.foldl_append, if_neg hq, ← walk_eq]

theorem walk_name {s : String} (hs : IsName s) (dir : List String) : Path.walk ⟨s⟩ dir = dir ++ [s] := by
  rw [walk_eq, hs.not_isAbsolute, hs.parts]
  rfl

end Path
end StepChain
