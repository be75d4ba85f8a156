import Folio.Proofs.Collection.Puts
import Folio.Proofs.Service.Limits

/-!
# Stored names and descriptions

Where a class has names and descriptions and the codecs for texts leave them as they
are, a record has the name and the description that its document has, and the
document those of its record. So where everything that is stored has an allowed name
and an allowed description, so has what is found, and so it stays when a record that
has them is saved and when any record is deleted.

Results:
* `Document.Labelled`, `Entity.Labelled`, `Stored.Labelled`: names and descriptions
  that are allowed.
* `labelled_findById`: what is found has them.
* `labelled_save`, `labelled_deleteById`: what is stored keeps them.
-/
namespace Folio

variable {s : Schema} {known : ClassRef → Prop} {limits : Limits}

/-- The field is the text; if there is none, it is missing or null. -/
inductive Document.Tells (doc : Document) (k : String) : Option String → Prop
  | text {text : String} (h : doc.get? k = some (.text text)) : Tells doc k (some text)
  | missing (h : doc.get? k = none) : Tells doc k none
  | null (h : doc.get? k = some .null) : Tells doc k none

/-- The document has an allowed name and an allowed description, or no description. -/
def Document.Labelled (limits : Limits) (doc : Document) : Prop :=
  ∃ name description, limits.Allow name description ∧ doc.Tells nameProperty name ∧
    doc.Tells descriptionProperty description

/-- So has the record. -/
def Entity.Labelled (limits : Limits) (e : Entity) : Prop :=
  ∃ name description, limits.Allow name description ∧
    Keyed.get? nameProperty e.attributes = name.map .text ∧
    Keyed.get? descriptionProperty e.attributes = description.map .text

/-- The entry keeps a document that has them. -/
def Stored.Labelled (limits : Limits) (e : Stored) : Prop :=
  ∃ doc, ofDocument doc = .ok e ∧ doc.Labelled limits

/-- The class is a known one, and whatever class is known by its name has names and
descriptions. -/
structure Schema.Labels (s : Schema) (known : ClassRef → Prop) (c : ClassRef) : Prop where
  isKnown : known c
  closed : s.Closed known
  names : ∀ c', known c' → c'.name = c.name → s.Carries .naming c'
  descriptions : ∀ c', known c' → c'.name = c.name → s.Carries .describing c'

namespace Document

variable {doc other : Document} {k : String} {text : Option String}

theorem Tells.congr (h : doc.Tells k text) (hk : other.get? k = doc.get? k) : other.Tells k text := by
  cases h with
  | text h => exact .text (hk.trans h)
  | missing h => exact .missing (hk.trans h)
  | null h => exact .null (hk.trans h)

theorem Tells.canonical (h : doc.Tells k text)
    (hk : other.get? k = (doc.get? k).map Value.canonical) : other.Tells k text := by
  cases h with
  | text h => exact .text (by rw [hk, h]; rfl)
  | missing h => exact .missing (by rw [hk, h]; rfl)
  | null h => exact .null (by rw [hk, h]; rfl)

theorem tells_of_get? (h : doc.get? k = text.map .text) : doc.Tells k text := by
  cases text with
  | none => exact .missing h
  | some text => exact .text h

/-- Only the two fields matter. -/
theorem Labelled.congr (h : doc.Labelled limits)
    (hk : ∀ f ∈ [Feature.naming, .describing], other.get? f.property = doc.get? f.property) :
    other.Labelled limits := by
  obtain ⟨name, description, hallow, hname, hdescription⟩ := h
  exact ⟨name, description, hallow, hname.congr (hk _ List.mem_cons_self),
    hdescription.congr (hk _ (List.mem_cons_of_mem _ List.mem_cons_self))⟩

end Document

/-- What is read of the entry has the name and the description, each name once. -/
theorem Stored.Labelled.read {e : Stored} {doc : Document} (h : e.Labelled limits)
    (hd : e.document = .ok doc) : (doc.fields.map (·.1)).Nodup ∧ doc.Labelled limits := by
  obtain ⟨kept, hof, name, description, hallow, hname, hdescription⟩ := h
  obtain ⟨hn, hget⟩ := get?_document hof hd
  exact ⟨hn, name, description, hallow, hname.canonical (hget _), hdescription.canonical (hget _)⟩

/-! ## Encoding and rebuilding -/

namespace Registry

variable {r r' : Registry} {doc : Document} {e : Entity} {c : ClassRef}

/-- The document of a record has its name and its description. -/
theorem labelled_encodeRecord (hr : r.Literal s known) (he : e.Labelled limits)
    (h : (encodeRecord e).run r = (.ok doc, r')) : doc.Labelled limits := by
  obtain ⟨name, description, hallow, hname, hdescription⟩ := he
  exact ⟨name, description, hallow,
    Document.tells_of_get? (text_encodeRecord hr (by decide) hname h),
    Document.tells_of_get? (text_encodeRecord hr (by decide) hdescription h)⟩

/-- A text of a document is that of the record that it is rebuilt as. -/
theorem text_inflate {f : Feature} (hclosed : s.Closed known) (hc : known c)
    (hf : ∀ c', known c' → c'.name = c.name → s.Carries f c') (htype : f.type = .text)
    (hr : r.Literal s known) (hn : (doc.fields.map (·.1)).Nodup) {text : Option String}
    (hdoc : doc.Tells f.property text) (h : (inflate c doc : RegistryM Entity).run r = (.ok e, r')) :
    Keyed.get? f.property e.attributes = text.map .text := by
  have htypes : ∀ c', known c' → c'.name = c.name →
      (Descriptor.ofClass s c').typeOf f.property = .text := fun c' hc' hname =>
    (Descriptor.typeOf_feature (hf c' hc' hname)).trans htype
  have hdefaults : ∀ c', known c' → c'.name = c.name →
      f.property ∉ (Descriptor.ofClass s c').defaults.map (·.1) := fun c' hc' hname =>
    Descriptor.notMem_defaults (hf c' hc' hname) (by rw [htype]; rfl)
  cases hdoc with
  | @text text hget =>
    exact stored_inflate hclosed hc hr.toSound.own hn htypes (.text hr.texts text) ⟨rfl, rfl, rfl⟩ hget h
  | missing hget =>
    refine unset_inflate hclosed hc hr.toSound.own hn htypes hdefaults (fun v hv => ?_) h
    rw [hget] at hv
    cases hv
  | null hget =>
    refine unset_inflate hclosed hc hr.toSound.own hn htypes hdefaults (fun v hv => ?_) h
    rw [hget] at hv
    cases hv
    exact .unset hr.texts

/-- A record has the name and the description of the document that it is rebuilt
of. -/
theorem labelled_inflate (hc : s.Labels known c) (hr : r.Literal s known)
    (hn : (doc.fields.map (·.1)).Nodup) (hdoc : doc.Labelled limits)
    (h : (inflate c doc : RegistryM Entity).run r = (.ok e, r')) : e.Labelled limits := by
  obtain ⟨name, description, hallow, hname, hdescription⟩ := hdoc
  exact ⟨name, description, hallow,
    text_inflate (f := .naming) hc.closed hc.isKnown hc.names rfl hr hn hname h,
    text_inflate (f := .describing) hc.closed hc.isKnown hc.descriptions rfl hr hn hdescription h⟩

end Registry

/-! ## Finding, saving and deleting -/

namespace Collection

variable {c : Collection} {b : Backend} {e : Entity} {newId : Option ObjectId} {ambient : Ambient}

/-- What is found for an id, whatever the scope hides, has an allowed name and an
allowed description. -/
theorem labelled_findById (hc : s.Labels known c.cls) (hscope : c.scope = .plain)
    (hr : b.registry.Literal s known) (hall : ∀ x ∈ b.store.entries c.name, x.Labelled limits)
    {id : ObjectId} {stored : Entity} {after : Backend}
    (hrun : (c.findById (some id) : BackendM (Option Entity)).run b = (.ok (some stored), after)) :
    stored.Labelled limits := by
  obtain ⟨i, doc, r, ⟨found, hi, hread⟩, -, hinflate⟩ := rebuilt_of_findById hscope hrun
  obtain ⟨hn, hdoc⟩ := (hall found (List.mem_of_getElem? hi)).read hread
  exact Registry.labelled_inflate hc hr hn hdoc hinflate

/-- An entity has the name and the description of one that differs in its stamps
only. -/
theorem labelled_of_alike {x : Entity} (he : e.Labelled limits)
    (h : ∀ k, Held.Unstamped k → Keyed.get? k x.attributes = Keyed.get? k e.attributes) :
    x.Labelled limits := by
  obtain ⟨name, description, hallow, hname, hdescription⟩ := he
  exact ⟨name, description, hallow, (h _ Feature.naming.unstamped).trans hname,
    (h _ Feature.describing.unstamped).trans hdescription⟩

/-- Saving a record that has an allowed name and an allowed description keeps those
of everything that is stored. -/
theorem labelled_save (hr : b.registry.Literal s known)
    (hall : ∀ x ∈ b.store.entries c.name, x.Labelled limits) (he : e.Labelled limits)
    {result : Except Failure (Option Entity)} {after : Held Entity}
    (hrun : (c.save newId ambient : HeldM Entity (Option Entity)).run ⟨e, b⟩ = (result, after)) :
    ∀ x ∈ after.backend.store.entries c.name, x.Labelled limits := by
  have hids : ∀ f ∈ [Feature.naming, .describing], f.property ≠ idField := by decide
  obtain ⟨-, hsame | hput⟩ := save_put s known hrun
  · rw [hsame c.name]
    exact hall
  cases hput with
  | @added x doc r entry new alike id encoded kept free changed =>
    have hdoc := Registry.labelled_encodeRecord hr (labelled_of_alike he alike) encoded
    rw [changed.here]
    intro y hy
    rcases List.mem_append.1 hy with hy | hy
    · exact hall y hy
    · rw [List.mem_singleton.1 hy]
      exact ⟨_, kept, hdoc.congr fun f hf => Store.get?_withId (hids f hf)⟩
  | @replaced x id doc existing next r i entry isId alike encoded place found replacement kept changed =>
    have hdoc := Registry.labelled_encodeRecord hr (labelled_of_alike he alike) encoded
    rw [changed.here]
    intro y hy
    rcases List.mem_or_eq_of_mem_set hy with hy | rfl
    · exact hall y hy
    · exact ⟨next, kept, hdoc.congr fun f hf => Store.get?_replacement replacement (hids f hf)⟩

/-- Deleting keeps them too, where records can be defunct and where they cannot. -/
theorem labelled_deleteById (hall : ∀ x ∈ b.store.entries c.name, x.Labelled limits)
    {id : Option ObjectId} {result : Except Failure (Option Entity)} {after : Backend}
    (hrun : (c.deleteById id : BackendM (Option Entity)).run b = (result, after)) :
    ∀ x ∈ after.store.entries c.name, x.Labelled limits := by
  rcases deleteById_cases hrun with ⟨-, hsame⟩ | ⟨i, doc, -, htakes, -⟩
  · rw [hsame c.name]
    exact hall
  cases htakes with
  | out scope place found changed =>
    rw [changed.here]
    exact fun x hx => hall x (List.mem_of_mem_eraseIdx hx)
  | @marked i next entry scope place found updated kept changed =>
    obtain ⟨old, hold, hread⟩ := place
    have hdoc := ((hall old (List.mem_of_getElem? hold)).read hread).2
    rw [changed.here]
    intro x hx
    rcases List.mem_or_eq_of_mem_set hx with hx | rfl
    · exact hall x hx
    · refine ⟨next, kept, hdoc.congr fun f hf => ?_⟩
      cases updated
      rw [Document.get?_insert, if_neg]
      revert f
      decide

end Collection
end Folio
