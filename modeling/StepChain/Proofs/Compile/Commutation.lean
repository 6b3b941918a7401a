import StepChain.Proofs.Compile.Succession
/-!
# Blocks that share no step

Blocks whose chains share no step collect into sections of their own, so they generate the same in either order
(`Flow.generate_comm`); a block without a chain generates nothing.  What a page adds to a run is a fold over its blocks
(`generatedBy_page`).  So neighbours that share no step may change places, and a block without a chain may stand
anywhere in its page or, if its references lead somewhere, be left out (`update_rearranged`).
-/
namespace StepChain

open Json (Object Members)

namespace Flow

variable (flow : Flow)

/-- **Positions that share no step generate the same in either order.** -/
theorem generate_comm (a b : Block) {ps qs : List Position}
    (h : (ps.map (·.step.name)).Disjoint (qs.map (·.step.name))) (generated : Object) :
    flow.generate b qs (flow.generate a ps generated) = flow.generate a ps (flow.generate b qs generated) := by
  apply Members.ext
  intro name
  simp only [get?_generate, sectionOf_generate]
  -- at each name at most one of the blocks has a say, and it finds what the other one found
  by_cases hp : name ∈ ps.map (·.step.name)
  · have hq : name ∉ qs.map (·.step.name) := fun hmem => h hp hmem
    rw [if_neg hq, if_pos hp, if_pos hp, sectionThrough_of_not_mem flow b hq]
  · rw [if_neg hp, if_neg hp, sectionThrough_of_not_mem flow a hp]

end Flow

namespace Compiler

variable (c : Compiler) (present : Path → Bool)

/-- The chains of two blocks share no step. -/
def Apart (a b : Block) : Prop :=
  ((c.flow.chainOf a.kind).map Step.name).Disjoint ((c.flow.chainOf b.kind).map Step.name)

def generateBlock (page : Page) (generated : Object) (block : Block) : Object :=
  c.flow.generate block (c.positionsOf (c.found present) ⟨page, block⟩) generated

theorem generateBlock_comm {a b : Block} (h : c.Apart a b) (page : Page) (generated : Object) :
    c.generateBlock present page (c.generateBlock present page generated a) b =
      c.generateBlock present page (c.generateBlock present page generated b) a := by
  apply c.flow.generate_comm
  rw [map_name_positionsOf, map_name_positionsOf]
  exact h

theorem generateBlock_of_no_chain {a : Block} (h : c.flow.chainOf a.kind = []) (page : Page) (generated : Object) :
    c.generateBlock present page generated a = generated := by
  rw [generateBlock, positionsOf, positions, h]
  rfl

theorem foldl_generateBlock_of_no_chain {a : Block} (h : c.flow.chainOf a.kind = []) (page : Page)
    (earlier later : List Block) (generated : Object) :
    (earlier ++ a :: later).foldl (c.generateBlock present page) generated =
      (earlier ++ later).foldl (c.generateBlock present page) generated := by
  rw [List.foldl_append, List.foldl_cons, c.generateBlock_of_no_chain present h, List.foldl_append]

/-! ### One page among others -/

/-- Every reference of a block leads somewhere. -/
def Leads (page : Page) (block : Block) : Prop :=
  c.search.sources present ⟨page, block⟩ = .ok (c.found present ⟨page, block⟩)

theorem jobsOf_page (before after : List Page) (page : Page) :
    jobsOf (before ++ page :: after) = jobsOf before ++ (page.blocks.map (Job.mk page) ++ jobsOf after) := by
  rw [jobsOf_append]
  rfl

theorem generatedBy_page (before after : List Page) (page : Page) :
    c.generatedBy present (before ++ page :: after) = c.generateJobs (c.found present) (jobsOf after)
      (page.blocks.foldl (c.generateBlock present page) (c.generatedBy present before)) := by
  rw [generatedBy, generatedBy, jobsOf_page, generateJobs, List.foldl_append, List.foldl_append, List.foldl_map]
  rfl

theorem resolves_page (before after : List Page) (page : Page) :
    c.Resolves present (before ++ page :: after) ↔
      c.Resolves present before ∧ (∀ block ∈ page.blocks, c.Leads present page block) ∧ c.Resolves present after := by
  unfold Resolves Leads
  simp only [jobsOf_page, List.forall_mem_append, List.forall_mem_map]

/-- Two lists of pages succeed alike and leave the same configuration, whatever it was before. -/
structure CompileAlike (pages others : List Page) : Prop where
  succeeds_iff : ∀ config, ((c.update present pages).run.run config).1 = .ok () ↔
    ((c.update present others).run.run config).1 = .ok ()
  config_eq : ∀ config, ((c.update present pages).run.run config).2 = ((c.update present others).run.run config).2

theorem update_eq_ok_iff (pages : List Page) (config : Config) :
    ((c.update present pages).run.run config).1 = .ok () ↔ c.Resolves present pages := by
  constructor
  · intro h
    exact c.resolves_of_update present (Prod.ext h rfl)
  · intro h
    rw [h.update]

theorem compileAlike_of {pages others : List Page} (hresolves : c.Resolves present pages ↔ c.Resolves present others)
    (hgenerated : c.generatedBy present pages = c.generatedBy present others) : c.CompileAlike present pages others := by
  have hsucceeds : ∀ config, ((c.update present pages).run.run config).1 = .ok () ↔
      ((c.update present others).run.run config).1 = .ok () := fun config => by
    rw [update_eq_ok_iff, update_eq_ok_iff, hresolves]
  refine ⟨hsucceeds, fun config => ?_⟩
  by_cases h : c.Resolves present pages
  · rw [h.update, (hresolves.1 h).update, hgenerated]
  · -- both fail, and then neither has written anything
    have hkept : ∀ {pages : List Page}, ¬ c.Resolves present pages →
        ((c.update present pages).run.run config).2 = config := fun {pages} hfails => by
      cases hres : ((c.update present pages).run.run config).1 with
      | ok _ => exact absurd ((c.update_eq_ok_iff present pages config).1 hres) hfails
      | error e => exact (c.atomic_update present pages config).unchanged e hres
    rw [hkept h, hkept (fun hothers => h (hresolves.2 hothers))]

/-- Blocks of a page may be exchanged for others that lead somewhere alike and generate the same. -/
theorem compileAlike_page (before after : List Page) (page : Page) {blocks : List Block}
    (hleads : (∀ block ∈ page.blocks, c.Leads present page block) ↔ ∀ block ∈ blocks, c.Leads present page block)
    (hgenerated : ∀ generated, page.blocks.foldl (c.generateBlock present page) generated =
      blocks.foldl (c.generateBlock present page) generated) :
    c.CompileAlike present (before ++ page :: after) (before ++ { page with blocks := blocks } :: after) := by
  -- a reference is resolved by where its page is, whatever other blocks the page has
  have hsame : ∀ block, c.Leads present { page with blocks := blocks } block ↔ c.Leads present page block :=
    fun block => Iff.rfl
  have hfold : c.generateBlock present { page with blocks := blocks } = c.generateBlock present page := rfl
  apply compileAlike_of
  · rw [resolves_page, resolves_page, hleads]
    simp only [hsame]
  · rw [generatedBy_page, generatedBy_page, hgenerated, hfold]

/-- **Blocks that share no step commute.**  Two neighbours of a page whose chains share no step may change places.  A
block without a chain may stand anywhere in its page and, if its references lead somewhere, be left out. -/
theorem update_rearranged (before after : List Page) (page : Page) :
    (∀ earlier a b later, page.blocks = earlier ++ a :: b :: later → c.Apart a b →
      c.CompileAlike present (before ++ page :: after)
        (before ++ { page with blocks := earlier ++ b :: a :: later } :: after)) ∧
    ∀ earlier a later, page.blocks = earlier ++ a :: later → c.flow.chainOf a.kind = [] →
      (∀ earlier' later', earlier ++ later = earlier' ++ later' →
        c.CompileAlike present (before ++ page :: after)
          (before ++ { page with blocks := earlier' ++ a :: later' } :: after)) ∧
      ((∃ sources, c.search.sources present ⟨page, a⟩ = .ok sources) →
        c.CompileAlike present (before ++ page :: after)
          (before ++ { page with blocks := earlier ++ later } :: after)) := by
  refine ⟨fun earlier a b later hblocks hapart => ?_, fun earlier a later hblocks hchain => ⟨?_, ?_⟩⟩
  · have hperm : (earlier ++ a :: b :: later).Perm (earlier ++ b :: a :: later) := .append_left _ (.swap b a later)
    apply c.compileAlike_page present
    · simp only [hblocks, hperm.mem_iff]
    · intro generated
      rw [hblocks, List.foldl_append, List.foldl_append, List.foldl_cons, List.foldl_cons, List.foldl_cons,
        List.foldl_cons, c.generateBlock_comm present hapart]
  · intro earlier' later' hsplit
    have hperm : (earlier ++ a :: later).Perm (earlier' ++ a :: later') :=
      List.perm_middle.trans ((hsplit ▸ .refl _ : (a :: (earlier ++ later)).Perm (a :: (earlier' ++ later'))).trans
        List.perm_middle.symm)
    apply c.compileAlike_page present
    · simp only [hblocks, hperm.mem_iff]
    · intro generated
      rw [hblocks, c.foldl_generateBlock_of_no_chain present hchain, hsplit,
        c.foldl_generateBlock_of_no_chain present hchain]
  · rintro ⟨sources, hsources⟩
    have hleads : c.Leads present page a := c.sources_eq_found present hsources
    apply c.compileAlike_page present
    · simp only [hblocks, List.forall_mem_append, List.forall_mem_cons, hleads, true_and]
    · intro generated
      rw [hblocks, c.foldl_generateBlock_of_no_chain present hchain]

def siteStyles : Block := ⟨"css", "site.css", ["a.css"]⟩

def siteScripts : Block := ⟨"js", "site.js", ["a.js", "b.js"]⟩

def printSheet : Block := ⟨"sheet", "print.css", ["p.css"]⟩

/-- A block of a type that has no chain. -/
def note : Block := ⟨"note", "note.txt", ["a.txt"]⟩

def fourBlocks : Page := ⟨⟨"index.html"⟩, ⟨"."⟩, [siteStyles, siteScripts, printSheet, note]⟩

/-- Scripts and the print sheet, which both collect into sections that the styles began, change places; the note goes
to the front, or away. -/
theorem update_rearranged_fourBlocks :
    threeTypes.Apart siteScripts printSheet ∧ threeTypes.flow.chainOf note.kind = [] ∧
    threeTypes.CompileAlike (fun _ => false) [fourBlocks]
      [{ fourBlocks with blocks := [siteStyles, printSheet, siteScripts, note] }] ∧
    threeTypes.CompileAlike (fun _ => false) [fourBlocks]
      [{ fourBlocks with blocks := [note, siteStyles, siteScripts, printSheet] }] ∧
    threeTypes.CompileAlike (fun _ => false) [fourBlocks]
      [{ fourBlocks with blocks := [siteStyles, siteScripts, printSheet] }] ∧
    ((threeTypes.update (fun _ => false) [fourBlocks]).run.run staleConcat).1 = .ok () := by
  have hapart : threeTypes.Apart siteScripts printSheet := List.disjoint_left.2 (by decide)
  have hchain : threeTypes.flow.chainOf note.kind = [] := by rfl
  obtain ⟨hswap, hmove⟩ := threeTypes.update_rearranged (fun _ => false) [] [] fourBlocks
  obtain ⟨hanywhere, hremove⟩ := hmove [siteStyles, siteScripts, printSheet] note [] rfl hchain
  refine ⟨hapart, hchain, hswap [siteStyles] siteScripts printSheet [note] rfl hapart,
    hanywhere [] [siteStyles, siteScripts, printSheet] rfl, hremove ⟨["app/a.txt"], ?_⟩, ?_⟩
  · rfl
  · rfl

end Compiler

end StepChain
