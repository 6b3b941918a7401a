import StepChain.Proofs.Path.NormalForm
/-!
# Normal forms are canonical

A normal form is an anchor, the root or a directory some levels up, and then names (`normalComponents_anchored`).
Seen from a directory that is deep enough and made of a name the normal form does not have, where a path leads tells
its anchor and its names (`Anchor.eq_of_place`).  So two paths have one normal form exactly if they lead to the same
place from every directory (`normal_canonical`).
-/
namespace StepChain

open StepChain.Path (IsName)

/-- Where a normal form starts: at the root, or some levels above the working directory. -/
inductive Anchor where
  | root
  | above (levels : Nat)

namespace Anchor

def components : Anchor → List Component
  | root => [.root]
  | above levels => List.replicate levels .up

def place (dir : List String) : Anchor → List String
  | root => []
  | above levels => dir.take (dir.length - levels)

theorem reverse_components (a : Anchor) : a.components.reverse = a.components := by
  cases a with
  | root => rfl
  | above levels => rw [components, List.reverse_replicate]

theorem foldl_walk_up : ∀ (levels : Nat) (dir : List String),
    (List.replicate levels Component.up).foldl Component.walk dir = dir.take (dir.length - levels)
  | 0, dir => by simp
  | levels + 1, dir => by
    have ih := foldl_walk_up levels dir.dropLast
    rw [List.replicate_succ, List.foldl_cons, Component.walk, ih, List.dropLast_eq_take, List.take_take,
      List.length_take]
    congr 1
    omega

theorem foldl_walk_components (a : Anchor) (dir : List String) :
    a.components.foldl Component.walk dir = a.place dir := by
  cases a with
  | root => rfl
  | above levels => exact foldl_walk_up levels dir

end Anchor

namespace Path

/-- There is a name that is not one of these: one longer than all of them. -/
theorem exists_freshName (names : List String) : ∃ x, IsName x ∧ x ∉ names := by
  obtain ⟨x, hx, -, hlong⟩ := exists_longName ((names.map (·.toList.length)).max?.getD 0)
  refine ⟨x, hx, fun hmem => ?_⟩
  have hle := List.le_max?_getD_of_mem (k := 0) (List.mem_map_of_mem (f := (·.toList.length)) hmem)
  omega

end Path

/-- **Where a path leads tells its anchor and its names.** -/
theorem Anchor.eq_of_place {a b : Anchor} {as bs : List String}
    (h : ∀ dir, (∀ s ∈ dir, IsName s) → a.place dir ++ as = b.place dir ++ bs) : a = b ∧ as = bs := by
  obtain ⟨x, hx, hfresh⟩ := Path.exists_freshName (as ++ bs)
  rw [List.mem_append, not_or] at hfresh
  have hdeep : ∀ n, a.place (List.replicate n x) ++ as = b.place (List.replicate n x) ++ bs :=
    fun n => h _ fun s hs => by rw [List.eq_of_mem_replicate hs]; exact hx
  -- the names of the directory that are left are those of the anchor, since no other name is `x`
  have hcount : ∀ n, (a.place (List.replicate n x)).count x = (b.place (List.replicate n x)).count x := fun n => by
    have := congrArg (List.count x) (hdeep n)
    rwa [List.count_append, List.count_append, List.count_eq_zero.2 hfresh.1, List.count_eq_zero.2 hfresh.2] at this
  cases a with
  | root => cases b with
    | root => exact ⟨rfl, by simpa [place] using hdeep 0⟩
    | above l =>
      have := hcount (l + 1)
      simp [place] at this
  | above k => cases b with
    | root =>
      have := hcount (k + 1)
      simp [place] at this
    | above l =>
      have hlevels := hcount (k + l)
      simp [place] at hlevels
      obtain rfl : k = l := by omega
      exact ⟨rfl, List.append_cancel_left (hdeep 0)⟩

def Component.Anchored (cs : List Component) : Prop :=
  ∃ (a : Anchor) (names : List String), cs = a.components ++ names.map .name

namespace Component

theorem Anchored.settle {stack : List Component} (h : Anchored stack.reverse) {c : Component} (hc : c ≠ .root) :
    Anchored (settle stack c).reverse := by
  obtain ⟨a, names, hstack⟩ := h
  have hrev : stack = (names.map .name).reverse ++ a.components := by
    rw [← a.reverse_components, ← List.reverse_append, ← hstack, List.reverse_reverse]
  cases c with
  | root => exact absurd rfl hc
  | here =>
    rw [settle_here]
    exact ⟨a, names, hstack⟩
  | name s =>
    rw [settle_name, List.reverse_cons, hstack, List.append_assoc]
    exact ⟨a, names ++ [s], by simp⟩
  | up =>
    rcases List.eq_nil_or_concat names with rfl | ⟨front, last, rfl⟩
    · -- with no name to take away, `..` stays at the root and goes one level up elsewhere
      rw [hrev, List.map_nil, List.reverse_nil, List.nil_append]
      cases a with
      | root => exact ⟨.root, [], rfl⟩
      | above levels =>
        have hup : Component.settle (List.replicate levels .up) .up = List.replicate (levels + 1) .up := by
          cases levels <;> rfl
        exact ⟨.above (levels + 1), [], by simp [Anchor.components, hup]⟩
    · refine ⟨a, front, ?_⟩
      rw [hrev]
      simp [Component.settle, a.reverse_components]

theorem Anchored.foldl_settle : ∀ {cs stack : List Component}, Anchored stack.reverse → .root ∉ cs →
    Anchored (cs.foldl Component.settle stack).reverse
  | [], _, h, _ => h
  | c :: cs, stack, h, hroot => by
    rw [List.mem_cons, not_or] at hroot
    exact (h.settle (Ne.symm hroot.1)).foldl_settle hroot.2

end Component

namespace Path

/-- **The normal form of a path is an anchor and then ordinary names.** -/
theorem normalComponents_anchored (p : Path) : ∃ (a : Anchor) (names : List String),
    p.normalComponents = a.components ++ names.map .name ∧ ∀ s ∈ names, IsName s := by
  have hstart : Component.Anchored (if p.isAbsolute then [Component.root] else []).reverse := by
    split
    · exact ⟨.root, [], rfl⟩
    · exact ⟨.above 0, [], rfl⟩
  obtain ⟨a, names, h⟩ := hstart.foldl_settle (root_not_mem_parts p)
  rw [← normalComponents_eq] at h
  refine ⟨a, names, h, fun s hs => isName_of_mem_normalComponents (p := p) ?_⟩
  rw [h]
  exact List.mem_append_right _ (List.mem_map_of_mem hs)

theorem foldl_walk_names : ∀ (names dir : List String),
    (names.map Component.name).foldl Component.walk dir = dir ++ names
  | [], dir => by simp
  | s :: names, dir => by
    rw [List.map_cons, List.foldl_cons, foldl_walk_names names]
    simp [Component.walk]

theorem walk_of_normalComponents {p : Path} {a : Anchor} {names : List String}
    (h : p.normalComponents = a.components ++ names.map .name) (dir : List String) :
    p.walk dir = a.place dir ++ names := by
  rw [← walk_normal, normal, walk_ofComponents (fun s hs => isName_of_mem_normalComponents hs), h, List.foldl_append,
    a.foldl_walk_components, foldl_walk_names]

theorem normalComponents_eq_of_walk {p q : Path} (h : ∀ dir, (∀ s ∈ dir, IsName s) → p.walk dir = q.walk dir) :
    p.normalComponents = q.normalComponents := by
  obtain ⟨a, as, hp, -⟩ := normalComponents_anchored p
  obtain ⟨b, bs, hq, -⟩ := normalComponents_anchored q
  have hplace : ∀ dir, (∀ s ∈ dir, IsName s) → a.place dir ++ as = b.place dir ++ bs := fun dir hdir => by
    rw [← walk_of_normalComponents hp, ← walk_of_normalComponents hq]
    exact h dir hdir
  obtain ⟨rfl, rfl⟩ := Anchor.eq_of_place hplace
  rw [hp, hq]

theorem normal_eq_of_walk {p q : Path} (h : ∀ dir, (∀ s ∈ dir, IsName s) → p.walk dir = q.walk dir) :
    p.normal = q.normal := by
  rw [normal, normal, normalComponents_eq_of_walk h]

/-! ### The text of a normal form -/

/-- A slash or a run of `..`, which may be missing, and then ordinary names; `.` if nothing is left. -/
inductive IsNormal : Path → Prop where
  | here : IsNormal ⟨"."⟩
  | absolute {names : List String} (ordinary : ∀ s ∈ names, IsName s) : IsNormal ⟨"/" ++ "/".intercalate names⟩
  | relative {levels : Nat} {names : List String} (ordinary : ∀ s ∈ names, IsName s)
      (nonempty : List.replicate levels ".." ++ names ≠ []) :
      IsNormal ⟨"/".intercalate (List.replicate levels ".." ++ names)⟩

/-- A text that can stand between slashes. -/
structure IsSegment (s : String) : Prop where
  ne_nil : s.toList ≠ []
  no_slash : '/' ∉ s.toList

theorem IsName.isSegment {s : String} (h : IsName s) : IsSegment s := by
  refine ⟨fun hnil => ?_, h.2⟩
  rw [String.toList_eq_nil_iff.1 hnil] at h
  exact absurd h.1 (by decide)

theorem IsSegment.not_isAbsolute {s : String} (h : IsSegment s) : Path.isAbsolute ⟨s⟩ = false := by
  unfold isAbsolute
  cases hs : s.toList with
  | nil => rfl
  | cons c rest =>
    have hc := h.no_slash
    rw [hs, List.mem_cons, not_or] at hc
    simpa using Ne.symm hc.1

theorem join_segment (t : String) {s r : String} (hs : IsSegment s) (hr : IsSegment r) :
    Path.join ⟨t ++ s⟩ ⟨r⟩ = ⟨t ++ s ++ "/" ++ r⟩ := by
  have hempty : Path.isEmpty ⟨t ++ s⟩ = false := by
    rw [isEmpty, String.toList_append, List.isEmpty_eq_false_iff]
    exact List.append_ne_nil_of_right_ne_nil _ hs.ne_nil
  have hlast : (t ++ s).toList.getLast? ≠ some '/' := fun h => by
    rw [String.toList_append, List.getLast?_append, List.getLast?_eq_some_getLast hs.ne_nil, Option.some_or] at h
    exact hs.no_slash (Option.some.inj h ▸ List.getLast_mem hs.ne_nil)
  rw [join, hr.not_isAbsolute, hempty, if_neg (by simp), if_neg hlast]

theorem foldl_join_segments : ∀ (segments : List String) (t s : String), IsSegment s →
    (∀ r ∈ segments, IsSegment r) →
    segments.foldl (fun p r => p.join ⟨r⟩) (⟨t ++ s⟩ : Path) = ⟨t ++ "/".intercalate (s :: segments)⟩
  | [], t, s, _, _ => by rw [List.foldl_nil, String.intercalate_singleton]
  | r :: segments, t, s, hs, h => by
    have hr := h r List.mem_cons_self
    have ih := foldl_join_segments segments (t ++ s ++ "/") r hr fun x hx => h x (List.mem_cons_of_mem r hx)
    rw [List.foldl_cons, join_segment t hs hr, ih, String.intercalate_cons_cons]
    simp only [String.append_assoc]

theorem ofComponents_segments {cs : List Component} {segments : List String}
    (hcs : cs.map ofComponent = segments.map Path.mk) (hne : segments ≠ []) (h : ∀ s ∈ segments, IsSegment s) :
    ofComponents cs = ⟨"/".intercalate segments⟩ := by
  have hcs_ne : cs ≠ [] := by
    rintro rfl
    exact hne (by simpa using hcs.symm)
  obtain ⟨s, rest, rfl⟩ := List.exists_cons_of_ne_nil hne
  have hjoin := foldl_join_segments rest "" s (h s List.mem_cons_self) fun r hr => h r (List.mem_cons_of_mem s hr)
  rw [String.empty_append, String.empty_append] at hjoin
  rw [ofComponents_of_ne_nil hcs_ne, ← List.foldl_map, hcs, List.foldl_map, List.foldl_cons, join_of_isEmpty rfl, hjoin]

theorem ofComponents_root {names : List String} (h : ∀ s ∈ names, IsSegment s) :
    ofComponents (.root :: names.map .name) = ⟨"/" ++ "/".intercalate names⟩ := by
  cases names with
  | nil => rfl
  | cons s rest =>
    have hs := h s List.mem_cons_self
    have hjoin := foldl_join_segments rest "/" s hs fun r hr => h r (List.mem_cons_of_mem s hr)
    have hfirst : ((⟨""⟩ : Path).join (ofComponent .root)).join (ofComponent (.name s)) = ⟨"/" ++ s⟩ := by
      have hroot : (⟨""⟩ : Path).join (ofComponent .root) = ⟨"/"⟩ := rfl
      rw [hroot, join, ofComponent, hs.not_isAbsolute, if_neg (by decide), if_pos (by decide)]
    rw [ofComponents_of_ne_nil (by simp), List.map_cons, List.foldl_cons, List.foldl_cons, hfirst, List.foldl_map]
    exact hjoin

theorem isNormal_normal (p : Path) : p.normal.IsNormal := by
  obtain ⟨a, names, hp, hnames⟩ := normalComponents_anchored p
  have hsegment : ∀ s ∈ names, IsSegment s := fun s hs => (hnames s hs).isSegment
  rw [normal, hp]
  cases a with
  | root =>
    have htext := ofComponents_root hsegment
    rw [Anchor.components, List.singleton_append, htext]
    exact .absolute hnames
  | above levels =>
    rw [Anchor.components]
    by_cases hnil : List.replicate levels ".." ++ names = []
    · obtain ⟨hlevels, rfl⟩ := List.append_eq_nil_iff.1 hnil
      obtain rfl : levels = 0 := by simpa using hlevels
      exact .here
    · have hcs : (List.replicate levels Component.up ++ names.map Component.name).map ofComponent =
          (List.replicate levels ".." ++ names).map Path.mk := by
        simp [ofComponent, Function.comp_def]
      have hall : ∀ s ∈ List.replicate levels ".." ++ names, IsSegment s := fun s hs => by
        rcases List.mem_append.1 hs with hs | hs
        · rw [List.eq_of_mem_replicate hs]
          exact ⟨by decide, by decide⟩
        · exact hsegment s hs
      rw [ofComponents_segments hcs hnil hall]
      exact .relative hnames hnil

/-- **The normal form is a canonical form for where paths lead.**  It leads where the path leads, and two paths have
one normal form exactly if they lead to the same place from every directory.  So the normal form of a normal form is
itself, and a path may be normalised before another is joined to it. -/
theorem normal_canonical (p q : Path) :
    (∀ dir, p.normal.walk dir = p.walk dir) ∧
    (p.normal = q.normal ↔ ∀ dir, (∀ s ∈ dir, IsName s) → p.walk dir = q.walk dir) ∧
    p.normal.normal = p.normal ∧ p.normal.IsNormal ∧ (p.join q).normal = (p.normal.join q).normal := by
  refine ⟨walk_normal p, ⟨fun h dir _ => ?_, normal_eq_of_walk⟩, ?_, isNormal_normal p, ?_⟩
  · rw [← walk_normal p, h, walk_normal]
  · exact normal_eq_of_walk fun dir _ => walk_normal p dir
  · exact normal_eq_of_walk fun dir _ => by rw [walk_join, walk_join, walk_normal]

end Path
end StepChain
