import StepChain.Proofs.Placement
import StepChain.Search
/-!
# The first match of a search

A reference that the hook leaves to the search is answered from its candidates alone (`firstPresent_eq_ok`,
`firstPresent_eq_error`): the first that exists, and with none the first of all or an error.  So what does not change
the candidates up to repetition does not change what is found, and what a reference without `..` in excess leads to
lies under one of the roots (`find_firstMatch`).
-/
namespace StepChain

open StepChain.Path (NonClimbing)

theorem rootless_append {slashes : String} (h : ∀ c ∈ slashes.toList, c = '/' ∨ c = '\\') (reference : String) :
    rootless (slashes ++ reference) = rootless reference := by
  have hdrop : (slashes ++ reference).toList.dropWhile (fun c => c = '/' ∨ c = '\\') =
      reference.toList.dropWhile (fun c => c = '/' ∨ c = '\\') := by
    rw [String.toList_append, List.dropWhile_append_of_pos fun c hc => by simpa using h c hc]
  unfold rootless
  rw [hdrop]

theorem find?_append_repeated {α : Type} (p : α → Bool) {before : List α} {x : α} (hx : x ∈ before) (after : List α) :
    (before ++ x :: after).find? p = (before ++ after).find? p := by
  rw [List.find?_append, List.find?_append]
  cases hfound : before.find? p with
  | some y => rfl
  | none => rw [List.find?_cons_of_neg (List.find?_eq_none.1 hfound x hx)]

namespace Search

/-- There is no hook, or it leaves the reference to the search. -/
def Defers (s : Search) (page : Page) (block : Block) (reference : String) : Prop :=
  s.verdict page block reference = .defer

variable (s : Search) (present : Path → Bool) {page : Page} {block : Block} {reference : String}

theorem find_of_defers (h : s.Defers page block reference) :
    s.find present page block reference = s.firstPresent present page reference := by
  unfold Defers at h
  rw [find, h, settle]

theorem head?_candidates (dir : Path) (reference : String) :
    ∃ root ∈ s.rootsFor dir, (s.candidates dir reference).head? = some (root.join ⟨rootless reference⟩).normal := by
  unfold candidates rootsFor
  cases s.roots with
  | nil => exact ⟨dir, by simp, rfl⟩
  | cons root roots => exact ⟨root, by simp, rfl⟩

/-- **What a search answers**: the first candidate that exists, or the first of all if none does and it is lenient. -/
theorem firstPresent_eq_ok {p : Path} : s.firstPresent present page reference = .ok p ↔
    (s.candidates page.dir reference).find? present = some p ∨
      (s.candidates page.dir reference).find? present = none ∧ s.strict = false ∧
        (s.candidates page.dir reference).head? = some p := by
  obtain ⟨root, -, hhead⟩ := s.head?_candidates page.dir reference
  unfold firstPresent
  cases hfound : (s.candidates page.dir reference).find? present with
  | some q => simp [hfound]
  | none => cases hstrict : s.strict <;> simp [hfound, hhead]

theorem firstPresent_eq_error {e : SourceFault} : s.firstPresent present page reference = .error e ↔
    (s.candidates page.dir reference).find? present = none ∧ s.strict = true ∧ e = .notFound reference page.path := by
  unfold firstPresent
  cases hfound : (s.candidates page.dir reference).find? present with
  | some q => simp [hfound]
  | none => cases hstrict : s.strict <;> simp [hfound, eq_comm]

end Search

/-- A search that tried these candidates answers with the first one there is.  Only if there is none it fails, or takes
the very first when it is lenient. -/
structure FirstMatch (present : Path → Bool) (strict : Bool) (tried : List Path) (answer : Except SourceFault Path) :
    Prop where
  first : ∀ p, answer = .ok p → present p = true →
    ∃ i : Nat, tried[i]? = some p ∧ ∀ j < i, ∀ q, tried[j]? = some q → present q = false
  fails_iff : (∃ e, answer = .error e) ↔ strict = true ∧ ∀ q ∈ tried, present q = false
  passed : ∀ p, answer = .ok p → present p = false →
    strict = false ∧ (∀ q ∈ tried, present q = false) ∧ tried[0]? = some p

namespace Search

variable (s : Search) (present : Path → Bool) {page : Page} {block : Block} {reference : String}

theorem firstMatch_firstPresent (page : Page) (reference : String) :
    FirstMatch present s.strict (s.candidates page.dir reference) (s.firstPresent present page reference) := by
  have hnone : (s.candidates page.dir reference).find? present = none ↔
      ∀ q ∈ s.candidates page.dir reference, present q = false := by
    simp [List.find?_eq_none]
  constructor
  · intro p hp hpresent
    rcases (s.firstPresent_eq_ok present).1 hp with hfound | ⟨habsent, -, hhead⟩
    · obtain ⟨-, i, hi, hget, hbefore⟩ := List.find?_eq_some_iff_getElem.1 hfound
      refine ⟨i, by rw [List.getElem?_eq_getElem hi, hget], fun j hj q hq => ?_⟩
      have hlt : j < (s.candidates page.dir reference).length := Nat.lt_trans hj hi
      rw [List.getElem?_eq_getElem hlt] at hq
      obtain rfl := Option.some.inj hq
      simpa using hbefore j hj
    · have := hnone.1 habsent p (List.mem_of_mem_head? hhead)
      rw [hpresent] at this
      cases this
  · simp only [firstPresent_eq_error, hnone]
    constructor
    · rintro ⟨_, habsent, hstrict, -⟩
      exact ⟨hstrict, habsent⟩
    · rintro ⟨hstrict, habsent⟩
      exact ⟨_, habsent, hstrict, rfl⟩
  · intro p hp hpresent
    rcases (s.firstPresent_eq_ok present).1 hp with hfound | ⟨habsent, hstrict, hhead⟩
    · have := List.find?_some hfound
      rw [hpresent] at this
      cases this
    · rw [List.head?_eq_getElem?] at hhead
      exact ⟨hstrict, hnone.1 habsent, hhead⟩

theorem firstPresent_eq_ok_iff_of_candidates {s s' : Search} {reference' : String} (hstrict : s'.strict = s.strict)
    (hhead : (s'.candidates page.dir reference').head? = (s.candidates page.dir reference).head?)
    (hfind : (s'.candidates page.dir reference').find? present = (s.candidates page.dir reference).find? present)
    (p : Path) :
    s'.firstPresent present page reference' = .ok p ↔ s.firstPresent present page reference = .ok p := by
  rw [firstPresent_eq_ok, firstPresent_eq_ok, hstrict, hhead, hfind]

theorem candidates_append {slashes : String} (h : ∀ c ∈ slashes.toList, c = '/' ∨ c = '\\') (dir : Path)
    (reference : String) : s.candidates dir (slashes ++ reference) = s.candidates dir reference := by
  unfold candidates
  rw [rootless_append h]

theorem candidates_repeated {before after : List Path} {root : Path} (hroots : s.roots = before ++ after)
    (hroot : root ∈ before) (dir : Path) (reference : String) :
    (candidates { s with roots := before ++ root :: after } dir reference).head? =
      (s.candidates dir reference).head? ∧
    (candidates { s with roots := before ++ root :: after } dir reference).find? present =
      (s.candidates dir reference).find? present := by
  unfold candidates rootsFor
  rw [hroots]
  simp only [List.append_assoc, List.cons_append, List.map_append, List.map_cons]
  constructor
  · -- the root stands before, so the first root is still the first
    cases before with
    | nil => cases hroot
    | cons first others => rfl
  · exact find?_append_repeated present (List.mem_map_of_mem hroot) _

theorem exists_placed_of_firstPresent (hrel : NonClimbing ⟨rootless reference⟩) {p : Path}
    (h : s.firstPresent present page reference = .ok p) : ∃ root ∈ s.rootsFor page.dir, Path.Placed root reference p := by
  have hmem : p ∈ s.candidates page.dir reference := by
    rcases (s.firstPresent_eq_ok present).1 h with hfound | ⟨-, -, hhead⟩
    · exact List.mem_of_find?_eq_some hfound
    · exact List.mem_of_mem_head? hhead
  obtain ⟨root, hroot, rfl⟩ := List.mem_map.1 hmem
  exact ⟨root, hroot, Path.placed_join root hrel⟩

/-- **A search finds the first match.**  A reference that the hook leaves to the search is answered by the first of its
candidates that exists, and fails only in a strict search without any.  More slashes in front of it, and a root that is
tried once more, change nothing of what is found.  What is found for a reference that never climbs is one of the roots
and then the reference, so a reference that starts at the root leads nowhere else. -/
theorem find_firstMatch (h : s.Defers page block reference) :
    FirstMatch present s.strict (s.candidates page.dir reference) (s.find present page block reference) ∧
    (∀ slashes : String, (∀ c ∈ slashes.toList, c = '/' ∨ c = '\\') → s.Defers page block (slashes ++ reference) →
      ∀ p, s.find present page block (slashes ++ reference) = .ok p ↔ s.find present page block reference = .ok p) ∧
    (∀ before after root, s.roots = before ++ after → root ∈ before →
      Defers { s with roots := before ++ root :: after } page block reference →
      ∀ p, find { s with roots := before ++ root :: after } present page block reference = .ok p ↔
        s.find present page block reference = .ok p) ∧
    (NonClimbing ⟨rootless reference⟩ → ∀ p, s.find present page block reference = .ok p →
      ∃ root ∈ s.rootsFor page.dir, Path.Placed root reference p) := by
  rw [s.find_of_defers present h]
  refine ⟨s.firstMatch_firstPresent present page reference, ?_, ?_, ?_⟩
  · intro slashes hslashes hdefers
    have hsame := s.candidates_append hslashes page.dir reference
    rw [s.find_of_defers present hdefers]
    exact firstPresent_eq_ok_iff_of_candidates present rfl (by rw [hsame]) (by rw [hsame])
  · intro before after root hroots hroot hdefers
    obtain ⟨hhead, hfind⟩ := s.candidates_repeated present hroots hroot page.dir reference
    rw [find_of_defers _ present hdefers]
    exact firstPresent_eq_ok_iff_of_candidates present rfl hhead hfind
  · exact fun hrel p hp => s.exists_placed_of_firstPresent present hrel hp

/-- A strict search under two roots, with a hook that keeps one reference from it. -/
def layeredRoots : Search :=
  ⟨[⟨"app/"⟩, ⟨"../lib/."⟩], true, some fun q => if q.reference = "theme.js" then .cancel else .defer⟩

def layeredFiles (p : Path) : Bool := p = ⟨"../lib/scripts/a.js"⟩ ∨ p = ⟨"pages/scripts/a.js"⟩

def layeredPage : Page := ⟨⟨"pages/index.html"⟩, ⟨"pages"⟩, []⟩

/-- The second root has the file, before the page's directory. -/
theorem find_firstMatch_layered :
    layeredRoots.Defers layeredPage ⟨"js", "site.js", []⟩ "/scripts/a.js" ∧
    layeredRoots.candidates ⟨"pages"⟩ "/scripts/a.js" =
      [⟨"app/scripts/a.js"⟩, ⟨"../lib/scripts/a.js"⟩, ⟨"pages/scripts/a.js"⟩] ∧
    (∃ i : Nat, (layeredRoots.candidates ⟨"pages"⟩ "/scripts/a.js")[i]? = some ⟨"../lib/scripts/a.js"⟩ ∧
      ∀ j < i, ∀ q, (layeredRoots.candidates ⟨"pages"⟩ "/scripts/a.js")[j]? = some q → layeredFiles q = false) ∧
    layeredRoots.find layeredFiles layeredPage ⟨"js", "site.js", []⟩ "\\//scripts/a.js" = .ok ⟨"../lib/scripts/a.js"⟩ ∧
    find { layeredRoots with roots := [⟨"app/"⟩, ⟨"app/"⟩, ⟨"../lib/."⟩] } layeredFiles layeredPage
      ⟨"js", "site.js", []⟩ "/scripts/a.js" = .ok ⟨"../lib/scripts/a.js"⟩ ∧
    ∃ root ∈ layeredRoots.rootsFor ⟨"pages"⟩, Path.Placed root "/scripts/a.js" ⟨"../lib/scripts/a.js"⟩ := by
  have hdefers : layeredRoots.Defers layeredPage ⟨"js", "site.js", []⟩ "/scripts/a.js" := by
    unfold Defers
    decide +kernel
  have hfound : layeredRoots.find layeredFiles layeredPage ⟨"js", "site.js", []⟩ "/scripts/a.js" =
      .ok ⟨"../lib/scripts/a.js"⟩ := by
    rw [find_of_defers _ _ hdefers, firstPresent_eq_ok]
    exact .inl (by decide +kernel)
  obtain ⟨hfirst, hslashes, hrepeated, hplaced⟩ := layeredRoots.find_firstMatch layeredFiles hdefers
  refine ⟨hdefers, by decide +kernel, hfirst.first _ hfound (by decide +kernel), ?_, ?_, ?_⟩
  · exact (hslashes "\\/" (by simp) (by unfold Defers; decide +kernel) _).2 hfound
  · exact (hrepeated [⟨"app/"⟩] [⟨"../lib/."⟩] ⟨"app/"⟩ rfl List.mem_cons_self (by unfold Defers; decide +kernel) _).2
      hfound
  · exact hplaced (by decide +kernel) _ hfound

end Search

end StepChain
