import Mathlib.Data.List.Basic
import Mathlib.Data.Option.Basic
import StepChain.FileTree
/-!
# Writing files

A file goes to the place that its path leads to, or to a free name in a directory.  No directory comes or goes with it,
so every path still leads to where it led (`place?_set`), and the path of the file leads to what was written
(`bytes?_write?`).
-/
namespace StepChain.FileTree

variable {t : FileTree} {place : List String}

theorem isName_iff {segment : String} : isName segment = true ↔ segment ≠ "" ∧ segment ≠ "." ∧ segment ≠ ".." := by
  simp [isName, and_assoc]

/-- **Where one segment leads**, from a directory: nowhere else, up, or to an entry of its name. -/
theorem follow?_eq_some {start there : List String} {segment : String} :
    t.follow? start segment = some there ↔ t.isDirectory start = true ∧
      ((segment = "" ∨ segment = ".") ∧ there = start ∨ segment = ".." ∧ there = start.dropLast ∨
        isName segment = true ∧ segment.utf8ByteSize ≤ maxNameBytes ∧ there = start ++ [segment] ∧
          (t.entry? (start ++ [segment])).isSome) := by
  rw [isName_iff]
  unfold follow?
  by_cases hdir : t.isDirectory start = true
  · by_cases hhere : segment = "" ∨ segment = "."
    · rcases hhere with rfl | rfl <;> simp [hdir, Eq.comm (a := start)]
    · by_cases hup : segment = ".."
      · subst hup
        simp [hdir, Eq.comm (a := start.dropLast)]
      · rw [not_or] at hhere
        simp [hdir, hhere, hup]
        grind
  · simp [hdir]

theorem ne_root_of_not_isDirectory (h : t.isDirectory place = false) : place ≠ [] := by
  rintro rfl
  cases h

theorem entry?_set (hplace : place ≠ []) (entry : Entry) (other : List String) :
    FileTree.entry? (t.set place entry) other = if other = place then some entry else t.entry? other := by
  unfold entry? set
  by_cases hother : other = place
  · subst hother
    simp [hplace]
  · have hkept : (t.entries.filter (·.1 != place)).find? (·.1 == other) = t.entries.find? (·.1 == other) := by
      rw [List.find?_filter]
      congr 1
      funext e
      by_cases he : e.1 = other <;> simp [he, hother]
    have hhead : (place == other) = false := beq_false_of_ne (Ne.symm hother)
    rw [if_neg hother, List.find?_cons, hhead, hkept]

/-- **Where no directory is, a file makes none and takes none away.** -/
theorem isDirectory_set (h : t.isDirectory place = false) (content : ByteArray) (other : List String) :
    (t.set place (.file content)).isDirectory other = t.isDirectory other := by
  have hplace := ne_root_of_not_isDirectory h
  by_cases hother : other = place
  · subst hother
    rw [h, isDirectory, entry?_set hplace, if_pos rfl]
  · rw [isDirectory, isDirectory, entry?_set hplace, if_neg hother]

theorem follow?_set (h : t.isDirectory place = false) (content : ByteArray) {start there : List String}
    {segment : String} (hfollow : t.follow? start segment = some there) :
    (t.set place (.file content)).follow? start segment = some there := by
  rw [follow?_eq_some, isDirectory_set h, entry?_set (ne_root_of_not_isDirectory h)]
  obtain ⟨hdir, hhere | hup | ⟨hname, hsize, hthere, hentry⟩⟩ := follow?_eq_some.1 hfollow
  · exact ⟨hdir, .inl hhere⟩
  · exact ⟨hdir, .inr (.inl hup)⟩
  · refine ⟨hdir, .inr (.inr ⟨hname, hsize, hthere, ?_⟩)⟩
    -- the entry that was there stays, or the file takes its place
    split
    · rfl
    · exact hentry

theorem foldlM_follow?_set (h : t.isDirectory place = false) (content : ByteArray) :
    ∀ {segments : List String} {start there : List String}, segments.foldlM t.follow? start = some there →
    segments.foldlM (t.set place (.file content)).follow? start = some there
  | [], _, _, hfold => hfold
  | segment :: segments, start, there, hfold => by
    rw [List.foldlM_cons] at hfold ⊢
    obtain ⟨next, hnext, hrest⟩ := Option.bind_eq_some_iff.1 hfold
    rw [follow?_set h content hnext]
    exact foldlM_follow?_set h content hrest

/-- **A path leads to where it led before a file was set.** -/
theorem place?_set (h : t.isDirectory place = false) (content : ByteArray) {p : Path} {there : List String}
    (hplace : t.place? p = some there) : (t.set place (.file content)).place? p = some there := by
  unfold place? at *
  by_cases hlookable : isLookable p = true
  · rw [if_pos hlookable] at hplace ⊢
    exact foldlM_follow?_set h content hplace
  · rw [if_neg hlookable] at hplace
    cases hplace

theorem exists_of_newPlace? {p : Path} (h : t.newPlace? p = some place) : isLookable p = true ∧ ∃ name parent,
    p.segments.getLast? = some name ∧ p.segments.dropLast.foldlM t.follow? (t.start p) = some parent ∧
    isName name = true ∧ name.utf8ByteSize ≤ maxNameBytes ∧ t.isDirectory parent = true ∧ parent ++ [name] = place := by
  simp only [newPlace?, bind, Option.bind_eq_some_iff, Option.guard_eq_some'] at h
  obtain ⟨_, hlookable, name, hlast, parent, hparent, _, ⟨hname, hsize, hdir⟩, hplace⟩ := h
  exact ⟨hlookable, name, parent, hlast, hparent, hname, hsize, hdir, Option.some.inj hplace⟩

/-- A new file goes where no directory is, and its path leads there. -/
theorem place?_set_of_newPlace? {p : Path} (habsent : t.place? p = none) (hnew : t.newPlace? p = some place)
    (content : ByteArray) : t.isDirectory place = false ∧ (t.set place (.file content)).place? p = some place := by
  obtain ⟨hlookable, name, parent, hlast, hparent, hname, hsize, hdir, rfl⟩ := exists_of_newPlace? hnew
  have hplace : ∀ t : FileTree, p.segments.dropLast.foldlM t.follow? (t.start p) = some parent →
      t.place? p = t.follow? parent name := by
    intro t hparent
    rw [place?, if_pos hlookable, ← List.dropLast_append_getLast? name hlast, List.foldlM_append, hparent]
    simp
  have hfree : t.isDirectory (parent ++ [name]) = false := by
    -- an entry under the name would be where the path leads
    rw [Bool.eq_false_iff]
    intro hthere
    have hentry : (t.entry? (parent ++ [name])).isSome := by
      unfold isDirectory at hthere
      split at hthere <;> simp_all
    rw [hplace t hparent, follow?_eq_some.2 ⟨hdir, .inr (.inr ⟨hname, hsize, rfl, hentry⟩)⟩] at habsent
    cases habsent
  refine ⟨hfree, ?_⟩
  rw [hplace _ (foldlM_follow?_set hfree content hparent), follow?_eq_some, isDirectory_set hfree,
    entry?_set (ne_root_of_not_isDirectory hfree), if_pos rfl]
  exact ⟨hdir, .inr (.inr ⟨hname, hsize, rfl, rfl⟩)⟩

/-- **What is written is read back.** -/
theorem bytes?_write? {t' : FileTree} {p : Path} {content : ByteArray} (h : t.write? p content = some t') :
    t'.bytes? p = some content := by
  have hread : ∀ place, t.isDirectory place = false → (t.set place (.file content)).place? p = some place →
      (t.set place (.file content)).bytes? p = some content := by
    intro place hfree hplace
    rw [bytes?, hplace]
    simp [entry?_set (ne_root_of_not_isDirectory hfree)]
  unfold write? at h
  cases hplace : t.place? p with
  | some place =>
    simp only [hplace] at h
    split at h <;> rename_i hdir
    · cases h
    · obtain rfl := Option.some.inj h
      have hfree : t.isDirectory place = false := Bool.eq_false_iff.2 hdir
      exact hread place hfree (place?_set hfree content hplace)
  | none =>
    simp only [hplace] at h
    obtain ⟨place, hnew, rfl⟩ := Option.map_eq_some_iff.1 h
    obtain ⟨hfree, hset⟩ := place?_set_of_newPlace? hplace hnew content
    exact hread place hfree hset

end StepChain.FileTree
