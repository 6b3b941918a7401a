import StepChain.Proofs.Compile.NormalPaths
import StepChain.Proofs.Output
import StepChain.Proofs.Path.Descent
/-!
# Whether staged outputs stay with their step

A step that works per source writes into a directory of its own under the staging directory, each output under the file
name of its input.  An input without a file name is joined as it is, and its output lies where the input leads from
there (`Output.inStepDirectory_stagedFor`).  What a search comes to by itself is a normal form, and one without a file
name never leads into a directory but stays or climbs (`Path.not_leadsInto_of_normal`); only a hook can give another
(`Output.stagedFor_inside_iff`).
-/
namespace StepChain

open StepChain.Path (IsName)

namespace Path

theorem exists_anchor_of_fileName?_eq_none {p : Path} (hnormal : p.normal = p) (hnone : p.fileName? = none) :
    ∃ a : Anchor, p.normalComponents = a.components := by
  obtain ⟨a, names, hp, -⟩ := normalComponents_anchored p
  rcases List.eq_nil_or_concat names with rfl | ⟨front, last, rfl⟩
  · exact ⟨a, by simpa using hp⟩
  · have hlast : p.normalComponents = (a.components ++ front.map .name) ++ [.name last] := by simpa using hp
    have hname := fileName?_normal hlast
    rw [hnormal, hnone] at hname
    cases hname

end Path

theorem Anchor.length_place_le (a : Anchor) (dir : List String) : (a.place dir).length ≤ dir.length := by
  cases a with
  | root => exact Nat.zero_le _
  | above levels => exact List.length_take_le' _ _

/-- Seen from the directory of a step, wherever that lies, the path leads to a file right in it. -/
def Path.LeadsInto (p staging : Path) (step : String) : Prop :=
  ∃ file, IsName file ∧ ∀ dir, p.walk (staging.walk dir ++ [step]) = staging.walk dir ++ [step, file]

/-- **A normal form without a file name leads into no directory**: it goes to the root, stays or climbs. -/
theorem Path.not_leadsInto_of_normal {p : Path} (hnormal : p.normal = p) (hnone : p.fileName? = none) (staging : Path)
    (step : String) : ¬ p.LeadsInto staging step := by
  rintro ⟨file, -, hwalk⟩
  obtain ⟨a, hp⟩ := exists_anchor_of_fileName?_eq_none hnormal hnone
  have hanchor : p.normalComponents = a.components ++ ([] : List String).map .name := by simpa using hp
  have hplace : p.walk (staging.walk [] ++ [step]) = a.place (staging.walk [] ++ [step]) := by
    rw [walk_of_normalComponents hanchor, List.append_nil]
  have hle := a.length_place_le (staging.walk [] ++ [step])
  rw [← hplace, hwalk] at hle
  simp at hle

namespace Output

/-- The staging directory in normal form, then the name of the step, and then one further name. -/
def InStepDirectory (staging : Path) (step : String) (p : Path) : Prop :=
  ∃ file, IsName file ∧ p = Path.ofComponents (staging.normalComponents ++ [.name step, .name file])

variable (staging : Path) {step : String}

theorem ofComponents_inStep (hstep : IsName step) {file : String} (hfile : IsName file) :
    Path.ofComponents (staging.normalComponents ++ [.name step, .name file]) = ⟨inStep staging step file⟩ := by
  rw [inStep, Path.mk_text, Path.normal, Path.normalComponents_join_name _ hfile, Path.normalComponents_join_name _ hstep,
    List.append_assoc]
  rfl

theorem inStepDirectory_normal (hstep : IsName step) (p : Path) :
    InStepDirectory staging step ((staging.join ⟨step⟩).join p).normal ↔ p.LeadsInto staging step := by
  have hwalk : ∀ dir, ((staging.join ⟨step⟩).join p).walk dir = p.walk (staging.walk dir ++ [step]) := fun dir => by
    rw [Path.walk_join, Path.walk_join, Path.walk_name hstep]
  unfold InStepDirectory Path.LeadsInto
  refine exists_congr fun file => and_congr_right fun hfile => ?_
  rw [ofComponents_inStep staging hstep hfile]
  constructor
  · intro heq dir
    rw [← hwalk, ← Path.walk_normal, heq, walk_inStep staging hstep hfile]
  · intro hleads
    rw [inStep, Path.mk_text]
    refine Path.normal_eq_of_walk fun dir _ => ?_
    rw [hwalk, hleads, Path.walk_join, Path.walk_join, Path.walk_name hstep, Path.walk_name hfile, List.append_assoc]
    rfl

theorem stagedFor_of_fileName? (hstep : IsName step) {p : Path} {file : String} (h : p.fileName? = some file) :
    (⟨stagedFor staging step p.text⟩ : Path) =
      Path.ofComponents (staging.normalComponents ++ [.name step, .name file]) := by
  rw [stagedFor_eq staging step h, ofComponents_inStep staging hstep (Path.isName_of_fileName? h)]

/-- **The output for an input stays with its step** if the input has a file name, and else only if it leads there. -/
theorem inStepDirectory_stagedFor (hstep : IsName step) (p : Path) :
    InStepDirectory staging step ⟨stagedFor staging step p.text⟩ ↔ p.fileName?.isSome ∨ p.LeadsInto staging step := by
  cases hname : p.fileName? with
  | some file =>
    refine iff_of_true ⟨file, Path.isName_of_fileName? hname, ?_⟩ (.inl rfl)
    exact stagedFor_of_fileName? staging hstep hname
  | none =>
    rw [stagedFor, Path.mk_text p, hname, Option.getD_none, Path.mk_text p, Path.mk_text,
      inStepDirectory_normal staging hstep]
    simp

end Output

namespace Search

variable (s : Search) (present : Path → Bool) {page : Page} {block : Block} {reference : String}

/-- What the search comes to by itself is a normal form; anything else has been given by the hook. -/
theorem normal_or_override_of_find {p : Path} (h : s.find present page block reference = .ok p) :
    p.normal = p ∨ s.verdict page block reference = .override p := by
  rcases s.find_eq_ok.1 h with ⟨hverdict, -⟩ | ⟨-, hfirst⟩
  · exact .inr hverdict
  · exact .inl (Path.text_inj.1 (s.isNormalText_of_firstPresent present hfirst).normal_eq)

end Search

namespace Output

/-- **Where the output for a source lies.**  For a source with a file name it is the staging directory in normal form,
the step's name and the file name.  A source without one has an output there only if the hook gave it and it leads into
the step's directory; all others that a search can come to have theirs in another place. -/
theorem stagedFor_inside_iff (staging : Path) {step : String} (hstep : IsName step) {s : Search}
    {present : Path → Bool} {page : Page} {block : Block} {reference : String} {p : Path}
    (hfound : s.find present page block reference = .ok p) :
    (∀ file, p.fileName? = some file → (⟨stagedFor staging step p.text⟩ : Path) =
      Path.ofComponents (staging.normalComponents ++ [.name step, .name file])) ∧
    (InStepDirectory staging step ⟨stagedFor staging step p.text⟩ ↔
      p.fileName?.isSome ∨ s.verdict page block reference = .override p ∧ p.LeadsInto staging step) := by
  refine ⟨fun file hfile => stagedFor_of_fileName? staging hstep hfile, ?_⟩
  rw [inStepDirectory_stagedFor staging hstep]
  constructor
  · rintro (hname | hleads)
    · exact .inl hname
    · cases hname : p.fileName? with
      | some file => exact .inl rfl
      | none =>
        -- a path that the search came to by itself would have a file name
        refine .inr ⟨(s.normal_or_override_of_find present hfound).resolve_left fun hnormal => ?_, hleads⟩
        exact Path.not_leadsInto_of_normal hnormal hname staging step hleads
  · rintro (hname | ⟨-, hleads⟩)
    · exact .inl hname
    · exact .inr hleads

/-- A hook that gives a directory for one reference, in a spelling that has no file name. -/
def directoryHook : Search :=
  ⟨[⟨"app"⟩], false, some fun q => if q.reference = "assets" then .override ⟨"vendor/lib/.."⟩ else .defer⟩

def sitePage : Page := ⟨⟨"index.html"⟩, ⟨"."⟩, []⟩

def siteBlock : Block := ⟨"js", "site.js", []⟩

/-- A file, a directory that the hook gives, and the directory that `..` leads to under the root. -/
theorem stagedFor_inside_directoryHook :
    stagedFor ⟨"../.tmp/"⟩ "uglify" "app/a.js" = "../.tmp/uglify/a.js" ∧
    InStepDirectory ⟨"../.tmp/"⟩ "uglify" ⟨stagedFor ⟨"../.tmp/"⟩ "uglify" "vendor/lib/.."⟩ ∧
    ¬ InStepDirectory ⟨"../.tmp/"⟩ "uglify" ⟨stagedFor ⟨"../.tmp/"⟩ "uglify" "."⟩ := by
  have hstep : IsName "uglify" := by decide +kernel
  have hfile : directoryHook.find (fun _ => true) sitePage siteBlock "a.js" = .ok ⟨"app/a.js"⟩ := by decide +kernel
  have hgiven : directoryHook.find (fun _ => true) sitePage siteBlock "assets" = .ok ⟨"vendor/lib/.."⟩ := by
    decide +kernel
  have hparent : directoryHook.find (fun _ => true) sitePage siteBlock ".." = .ok ⟨"."⟩ := by decide +kernel
  refine ⟨?_, ?_, ?_⟩
  · obtain ⟨hplaced, -⟩ := stagedFor_inside_iff ⟨"../.tmp/"⟩ hstep hfile
    exact congrArg Path.text ((hplaced "a.js" (by decide +kernel)).trans (by decide +kernel))
  · obtain ⟨-, hinside⟩ := stagedFor_inside_iff ⟨"../.tmp/"⟩ hstep hgiven
    refine hinside.2 (.inr ⟨by decide +kernel, "vendor", by decide +kernel, fun dir => ?_⟩)
    have hcomponents : Path.components ⟨"vendor/lib/.."⟩ = [.name "vendor", .name "lib", .up] := by decide +kernel
    simp [Path.walk, hcomponents, Component.walk]
  · obtain ⟨-, hinside⟩ := stagedFor_inside_iff ⟨"../.tmp/"⟩ hstep hparent
    rw [hinside]
    rintro (hname | ⟨hverdict, -⟩)
    · exact absurd hname (by decide +kernel)
    · exact absurd hverdict (by decide +kernel)

/-- **A source can be staged outside of its step's directory**, here in the working directory: three times `..` leads
from a root to a directory above, and from the step's directory out of the staging directory. -/
theorem exists_stagedFor_outside : ¬ ∀ (staging : Path) (step : String) (s : Search) (present : Path → Bool)
    (page : Page) (block : Block) (reference : String) (p : Path), staging.isEmpty = false → IsName step →
    s.find present page block reference = .ok p → InStepDirectory staging step ⟨stagedFor staging step p.text⟩ := by
  intro h
  have hstep : IsName "uglify" := by decide +kernel
  have hinside := h ⟨".tmp"⟩ "uglify" ⟨[⟨"app"⟩], false, none⟩ (fun _ => true) sitePage siteBlock "../../.."
    ⟨"../.."⟩ (by decide) hstep (by decide +kernel)
  rcases (inStepDirectory_stagedFor ⟨".tmp"⟩ hstep _).1 hinside with hname | hleads
  · exact absurd hname (by decide +kernel)
  · exact Path.not_leadsInto_of_normal (by decide +kernel) (by decide +kernel) _ _ hleads

end Output
end StepChain
