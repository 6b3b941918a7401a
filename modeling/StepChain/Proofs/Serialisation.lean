import StepChain.Layout
import StepChain.Proofs.Json.Records
/-!
# What is written is read back

A record is written as the object of its fields, and read from that object with members of other names anywhere in it,
or from the array of its fields in order (`Json.Written`).  Whichever of these a value is written as, the value is what
is read (`Json.Faithful`); so it is for blocks, mappings, layouts and, with every block written in its own way, pages
(`records_faithful`).
-/
namespace StepChain

open Json (Document Members)
open Json.Document (ofJson ofItems ofMembers record?)

namespace Json

variable {α : Type}

/-- The documents of a record.  An object has its members in any order, and members of unknown names anywhere; in an
array, a field that is missing is `null`.  The value of a field may itself be written otherwise, as `inside` allows. -/
inductive Written (encode : α → Json) (names : List String) (fields : α → List (Option Json))
    (inside : Document → Document → Prop) (a : α) : Document → Prop where
  | object {o : Object} {known members : List (Option String × Document)} (encoded : encode a = .object o)
      (reordered : known.Perm (ofMembers o)) (widening : Widening names inside known members) :
      Written encode names fields inside a (.object members)
  | array {items : List Document}
      (listed : List.Forall₂ (fun field item => inside (ofJson (field.getD .null)) item) (fields a) items) :
      Written encode names fields inside a (.array items)

structure Faithful (encode : α → Json) (decode : Document → Option α) (names : List String)
    (fields : α → List (Option Json)) (inside : Document → Document → Prop) : Prop where
  isObject : ∀ a, (encode a).isObject = true
  encoded : ∀ a, decode (ofJson (encode a)) = some a
  listed : ∀ a, decode (ofJson (.array ((fields a).map (·.getD .null)))) = some a
  written : ∀ a d, Written encode names fields inside a d → decode d = some a

/-- A field as a record may find it: one without a value is missing or `null`. -/
inductive Found (inside : Document → Document → Prop) : Option Json → Option Document → Prop where
  | missing : Found inside none none
  | there {field : Option Json} {d : Document} (value : inside (ofJson (field.getD .null)) d) :
      Found inside field (some d)

variable {encode : α → Json} {decode : Document → Option α} {names : List String} {fields : α → List (Option Json)}
  {inside : Document → Document → Prop}

theorem found_of_rel {field : Option Json} {found : Option Document} (h : Option.Rel inside (field.map ofJson) found) :
    Found inside field found := by
  cases field with
  | none =>
    cases h
    exact .missing
  | some j =>
    cases h with
    | some value => exact .there value

/-- **A decoder that reads what a record finds is faithful**, if the object that the encoder makes has the fields under
their names. -/
theorem Faithful.of_found (hinside : ∀ d, inside d d)
    (hencode : ∀ a, ∃ o : Object, encode a = .object o ∧ names.map o.get? = fields a)
    (hdecode : ∀ a d found, record? names d = some found → List.Forall₂ (Found inside) (fields a) found →
      decode d = some a) : Faithful encode decode names fields inside := by
  have hwritten : ∀ a d, Written encode names fields inside a d → decode d = some a := by
    intro a d h
    obtain ⟨o, ho, hfields⟩ := hencode a
    cases h with
    | object encoded reordered widening =>
      -- the members that are not known change nothing of what is found, and their order does not either
      obtain rfl := Json.object.inj (ho.symm.trans encoded)
      obtain ⟨found, hfound, hrel⟩ :=
        Document.exists_record?_of_widening widening (Document.record?_of_perm names reordered)
      refine hdecode a _ found hfound ?_
      rw [← hfields, List.forall₂_map_left_iff]
      rw [List.forall₂_map_left_iff] at hrel
      exact hrel.imp fun _ _ h => found_of_rel h
    | array listed =>
      have hlength : names.length = (fields a).length := by rw [← hfields, List.length_map]
      refine hdecode a _ _ (Document.record?_array (listed.length_eq.symm.trans hlength.symm)) ?_
      rw [List.forall₂_map_right_iff]
      exact listed.imp fun _ _ h => .there h
  refine ⟨fun a => ?_, fun a => ?_, fun a => ?_, hwritten⟩
  · obtain ⟨o, ho, -⟩ := hencode a
    rw [ho]
    rfl
  · obtain ⟨o, ho, -⟩ := hencode a
    rw [ho]
    exact hwritten a _ (.object ho (.refl _) (.of_refl hinside _))
  · refine hwritten a _ ?_
    rw [ofJson, ofItems_eq_map, List.map_map]
    refine .array ?_
    rw [List.forall₂_map_right_iff, List.forall₂_same]
    exact fun field _ => hinside _

theorem Found.exists_there {j : Json} {found : Option Document} (h : Found inside (some j) found) :
    ∃ d, found = some d ∧ inside (ofJson j) d := by
  cases h with
  | there value => exact ⟨_, rfl, value⟩

theorem Found.eq_some {j : Json} {found : Option Document} (h : Found Eq (some j) found) : found = some (ofJson j) := by
  obtain ⟨d, rfl, rfl⟩ := h.exists_there
  rfl

theorem Found.eq_none_or_null {found : Option Document} (h : Found Eq none found) :
    found = none ∨ found = some .null := by
  cases h with
  | missing => exact .inl rfl
  | there value => exact .inr (by rw [← value]; rfl)

/-- A field that need not be there is read as it was, whether it is missing or `null`. -/
theorem Found.optional_nullable {β : Type} (write : β → Json) {read : Document → Option β}
    (hread : ∀ b, read (ofJson (write b)) = some b) (hwrite : ∀ b, ofJson (write b) ≠ .null) {v : Option β}
    {found : Option Document} (h : Found Eq (v.map write) found) :
    Document.optional (Document.nullable read) none found = some v := by
  cases v with
  | none => rcases h.eq_none_or_null with rfl | rfl <;> rfl
  | some b =>
    have hvalue : Document.nullable read (ofJson (write b)) = (read (ofJson (write b))).map some := by
      have hne := hwrite b
      revert hne
      cases ofJson (write b) <;> simp [Document.nullable]
    rw [Option.map_some] at h
    rw [h.eq_some, Document.optional, hvalue, hread]
    rfl

theorem strings?_ofJson_ofStrings (xs : List String) : (ofJson (ofStrings xs)).strings? = some xs := by
  have hitems : ((xs.map Json.string).map ofJson).mapM Document.string? = some xs := by
    rw [mapM_eq_some_iff, List.map_map, List.forall₂_map_left_iff, List.forall₂_same]
    exact fun x _ => rfl
  rw [ofStrings, ofJson, ofItems_eq_map, Document.strings?, Document.array?, Option.bind_some, hitems]

end Json

open Json (Faithful Found Written)

namespace Block

def fieldNames : List String := ["type", "dest", "src"]

def fields (b : Block) : List (Option Json) :=
  [some (.string b.kind), some (.string b.dest), some (Json.ofStrings b.src)]

theorem faithful : Faithful toJson ofDocument? fieldNames fields Eq := by
  refine Faithful.of_found (fun _ => rfl) (fun b => ⟨_, rfl, ?_⟩) fun b d found hrecord hfound => ?_
  · simp [fieldNames, fields, Json.Members.ofList]
  · simp only [fields, List.forall₂_cons_left_iff, List.forall₂_nil_left_iff] at hfound
    obtain ⟨_, _, hkind, ⟨_, _, hdest, ⟨_, _, hsrc, rfl, rfl⟩, rfl⟩, rfl⟩ := hfound
    rw [fieldNames, hkind.eq_some, hdest.eq_some, hsrc.eq_some] at hrecord
    have hsrc' := Json.strings?_ofJson_ofStrings b.src
    rw [ofDocument?, hrecord]
    simp [Document.required, Document.optional, hsrc', ofJson, Document.string?]

end Block

namespace Mapping

def fieldNames : List String := ["src", "dest"]

def fields (m : Mapping) : List (Option Json) := [some (Json.ofStrings m.src), some (.string m.dest)]

theorem faithful : Faithful toJson ofDocument? fieldNames fields Eq := by
  refine Faithful.of_found (fun _ => rfl) (fun m => ⟨_, rfl, ?_⟩) fun m d found hrecord hfound => ?_
  · simp [fieldNames, fields, Json.Members.ofList]
  · simp only [fields, List.forall₂_cons_left_iff, List.forall₂_nil_left_iff] at hfound
    obtain ⟨_, _, hsrc, ⟨_, _, hdest, rfl, rfl⟩, rfl⟩ := hfound
    rw [fieldNames, hsrc.eq_some, hdest.eq_some] at hrecord
    have hsrc' := Json.strings?_ofJson_ofStrings m.src
    rw [ofDocument?, hrecord]
    simp [Document.required, hsrc', ofJson, Document.string?]

end Mapping

namespace Layout

def fieldNames : List String := ["input", "root", "dest", "staging"]

def fields (l : Layout) : List (Option Json) :=
  [l.input.map fun p => .string p.text, l.roots.map Roots.toJson, some (.string l.dest.text),
    some (.string l.staging.text)]

/-- One root and a list of roots are told apart, also a list of one. -/
theorem ofDocument?_toJson_roots (r : Roots) : Roots.ofDocument? (ofJson r.toJson) = some r := by
  cases r with
  | one root => rfl
  | many roots =>
    have hstrings : Roots.ofDocument? (ofJson (Json.ofStrings (roots.map Path.text))) =
        (ofJson (Json.ofStrings (roots.map Path.text))).strings?.map fun roots => .many (roots.map Path.mk) := rfl
    rw [Roots.toJson, hstrings, Json.strings?_ofJson_ofStrings, Option.map_some, List.map_map]
    simp [Function.comp_def]

theorem faithful : Faithful toJson ofDocument? fieldNames fields Eq := by
  refine Faithful.of_found (fun _ => rfl) (fun l => ⟨_, rfl, ?_⟩) fun l d found hrecord hfound => ?_
  · cases hinput : l.input <;> cases hroots : l.roots <;>
      simp [fieldNames, fields, Json.Members.ofList, hinput, hroots]
  · simp only [fields, List.forall₂_cons_left_iff, List.forall₂_nil_left_iff] at hfound
    obtain ⟨input, _, hinput, ⟨roots, _, hroots, ⟨_, _, hdest, ⟨_, _, hstaging, rfl, rfl⟩, rfl⟩, rfl⟩, rfl⟩ := hfound
    have hinput' : Document.optional (Document.nullable Document.string?) none input = some (l.input.map Path.text) := by
      refine Found.optional_nullable Json.string (fun _ => rfl) (fun _ => by simp [ofJson]) ?_
      rw [Option.map_map]
      exact hinput
    have hroots' : Document.optional (Document.nullable Roots.ofDocument?) none roots = some l.roots := by
      refine Found.optional_nullable Roots.toJson ofDocument?_toJson_roots (fun r => ?_) hroots
      cases r <;> simp [Roots.toJson, Json.ofStrings, ofJson]
    rw [fieldNames, hdest.eq_some, hstaging.eq_some] at hrecord
    rw [ofDocument?, hrecord]
    simp [hinput', hroots', Document.required, ofJson, Document.string?, Function.comp_def]

end Layout

namespace Page

def fieldNames : List String := ["path", "dir", "blocks"]

def fields (p : Page) : List (Option Json) :=
  [some (.string p.path.text), some (.string p.dir.text), some (.array (p.blocks.map Block.toJson))]

/-- A field of a page may be written otherwise if it holds blocks: each block in any way that blocks are written. -/
inductive Inside : Document → Document → Prop where
  | same (d : Document) : Inside d d
  | blocks {blocks : List Block} {items : List Document}
      (written : List.Forall₂ (Written Block.toJson Block.fieldNames Block.fields Eq) blocks items) :
      Inside (ofJson (.array (blocks.map Block.toJson))) (.array items)

def blocks? (d : Document) : Option (List Block) := d.array?.bind (·.mapM Block.ofDocument?)

theorem blocks?_of_written {blocks : List Block} {items : List Document}
    (h : List.Forall₂ (Written Block.toJson Block.fieldNames Block.fields Eq) blocks items) :
    blocks? (.array items) = some blocks := by
  rw [blocks?, Document.array?, Option.bind_some, mapM_eq_some_iff]
  exact (h.imp fun b d => Block.faithful.written b d).flip

theorem blocks?_ofJson (blocks : List Block) : blocks? (ofJson (.array (blocks.map Block.toJson))) = some blocks := by
  rw [ofJson, Json.ofItems_eq_map, blocks?, Document.array?, Option.bind_some, mapM_eq_some_iff, List.map_map,
    List.forall₂_map_left_iff, List.forall₂_same]
  exact fun b _ => Block.faithful.encoded b

theorem Inside.string {s : String} {d : Document} (h : Inside (ofJson (.string s)) d) : d = ofJson (.string s) := by
  generalize hwritten : ofJson (.string s) = written at h
  cases h with
  | same => rfl
  | blocks _ => simp [ofJson] at hwritten

theorem Inside.blocks?_eq {blocks : List Block} {d : Document}
    (h : Inside (ofJson (.array (blocks.map Block.toJson))) d) : blocks? d = some blocks := by
  have hblocks := blocks?_ofJson blocks
  generalize ofJson (.array (blocks.map Block.toJson)) = written at h hblocks
  cases h with
  | same => exact hblocks
  | blocks hwritten =>
    rw [blocks?_ofJson] at hblocks
    rw [blocks?_of_written hwritten, hblocks]

theorem faithful : Faithful toJson ofDocument? fieldNames fields Inside := by
  refine Faithful.of_found .same (fun p => ⟨_, rfl, ?_⟩) fun p d found hrecord hfound => ?_
  · simp [fieldNames, fields, Json.Members.ofList]
  · simp only [fields, List.forall₂_cons_left_iff, List.forall₂_nil_left_iff] at hfound
    obtain ⟨_, _, hpath, ⟨_, _, hdir, ⟨_, _, hblocks, rfl, rfl⟩, rfl⟩, rfl⟩ := hfound
    obtain ⟨_, rfl, hpath'⟩ := hpath.exists_there
    obtain ⟨_, rfl, hdir'⟩ := hdir.exists_there
    obtain ⟨blocks, rfl, hblocks'⟩ := hblocks.exists_there
    rw [fieldNames, hpath'.string, hdir'.string] at hrecord
    have hread : (blocks.array?.bind (·.mapM Block.ofDocument?)) = some p.blocks := hblocks'.blocks?_eq
    rw [ofDocument?, hrecord]
    simp [Document.required, Document.optional, hread, ofJson, Document.string?]

end Page

/-- **What is written is read back**: pages, blocks, mappings and layouts, as the object of their fields, also with
members of other names anywhere in it, and as the array of their fields. -/
theorem records_faithful :
    Faithful Page.toJson Page.ofDocument? Page.fieldNames Page.fields Page.Inside ∧
    Faithful Block.toJson Block.ofDocument? Block.fieldNames Block.fields Eq ∧
    Faithful Mapping.toJson Mapping.ofDocument? Mapping.fieldNames Mapping.fields Eq ∧
    Faithful Layout.toJson Layout.ofDocument? Layout.fieldNames Layout.fields Eq :=
  ⟨Page.faithful, Block.faithful, Mapping.faithful, Layout.faithful⟩

end StepChain
