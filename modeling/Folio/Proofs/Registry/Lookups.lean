import Folio.Collection.Basic
import Folio.Proofs.Registry.Encoding

/-!
# What looking up leaves in a registry

A registry without suppliers and without a key finds the codecs known here and
no others. Whatever document it is asked to decode, and whether or not that
succeeds, it stays such a registry.

Results:
* `plain_codec`, `plain_withCatalog`: the two kinds of look-up.
* `plain_value`: decoding a value of a declared type makes look-ups only.
* `plain_inflate`, `plain_findById`: so does rebuilding a record, and finding
  one.
-/
namespace Folio

namespace Registry

/-- No suppliers and no key before, and none afterwards; what is found by then
is known here. -/
def StaysPlain (r r' : Registry) : Prop := (r.Plain fun _ => True) → r'.Plain fun _ => True

theorem staysPlain_frame : Frame StaysPlain := ⟨fun _ h => h, fun h h' hr => h' (h hr)⟩

/-- Finding a codec adds at most the one that is known for the type. -/
theorem plain_codec (t : ValueType) : Within StaysPlain (codec t) := by
  intro r hr
  rcases codec_cases t r with ⟨found, -, hrun⟩ | ⟨-, hrun⟩ | ⟨found, -, hfound, hrun⟩ <;> rw [hrun]
  · exact hr
  · exact hr
  · refine ⟨hr.noProviders, hr.noKey, fun p hp => ?_⟩
    rcases List.mem_cons.1 hp with rfl | hp
    · exact ⟨trivial, (resolve?_plain hr t).symm.trans hfound⟩
    · exact hr.codecs p hp

/-- The classes are another matter than the codecs. -/
theorem plain_withCatalog {α : Type} (m : CatalogM α) : Within StaysPlain (withCatalog m) :=
  fun _ hr => ⟨hr.noProviders, hr.noKey, hr.codecs⟩

end Registry

namespace Decoder

/-- The same of the registry that a decoder has. -/
def StaysPlain (d d' : Decoder) : Prop := d.registry.StaysPlain d'.registry

theorem staysPlain_frame : Frame StaysPlain := ⟨fun _ h => h, fun h h' hr => h' (h hr)⟩

variable {α β : Type}

theorem plain_pure (a : α) : Within StaysPlain (pure a : Step α) := staysPlain_frame.within_pure a

theorem plain_throw (failure : Failure) : Within StaysPlain (throw failure : Step α) :=
  staysPlain_frame.within_throw failure

theorem plain_bind {m : Step α} {f : α → Step β} (hm : Within StaysPlain m)
    (hf : ∀ a, Within StaysPlain (f a)) : Within StaysPlain (m >>= f) :=
  staysPlain_frame.within_bind hm hf

theorem plain_get : Within StaysPlain (getThe Decoder : Step Decoder) := staysPlain_frame.within_get

theorem plain_read (call : Reader.Call α) : Within StaysPlain (read call) := fun _ h => h

theorem plain_look {m : RegistryM α} (h : Within Registry.StaysPlain m) :
    Within StaysPlain (look m) := fun d => h d.registry

theorem plain_narrow (least most : Int) (n : Int64) (make : Int64 → FieldValue) :
    Within StaysPlain (narrow least most n make) := by
  unfold narrow
  split
  · exact plain_pure _
  · exact plain_throw _

theorem plain_primitive (p : Primitive) (v : Value) : Within StaysPlain (primitive p v) := by
  unfold primitive
  split
  case h_10 =>
    split
    · exact plain_pure _
    · exact plain_throw _
  all_goals first | exact plain_pure _ | exact plain_narrow _ _ _ _ | exact plain_throw _

theorem plain_leaf (c : Codec) : Within StaysPlain (leaf c) := by
  unfold leaf
  split
  · exact plain_read _
  · exact plain_throw _
  refine plain_bind (plain_read _) fun v => ?_
  split
  case h_4 => exact plain_bind plain_get fun _ => plain_pure _
  all_goals
    first
      | exact plain_pure _
      | exact plain_throw _
      | exact plain_bind (plain_primitive _ _) fun _ => plain_pure _

theorem plain_entries {entry : Step (Option α)} (h : Within StaysPlain entry) (n : Nat) :
    Within StaysPlain (entries entry n) := by
  induction n with
  | zero => exact plain_pure []
  | succ n ih =>
    refine plain_bind plain_get fun d => ?_
    split
    · exact plain_pure []
    · refine plain_bind h fun found => ?_
      cases found with
      | none => exact ih
      | some a => exact plain_bind ih fun _ => plain_pure _

theorem plain_list {item : Step (Option FieldValue)} (h : Within StaysPlain item) :
    Within StaysPlain (list item) := by
  refine plain_bind plain_get fun d => ?_
  split
  · exact plain_bind (plain_read _) fun _ => plain_pure _
  · refine plain_bind (plain_read _) fun _ => plain_bind plain_get fun d => ?_
    refine plain_bind (plain_entries h _) fun items => ?_
    exact plain_bind (plain_read _) fun _ => plain_pure _

variable {decode : ValueType → Step (Option FieldValue)}

theorem plain_fields (h : ∀ t, Within StaysPlain (decode t)) (c : ClassRef) :
    Within StaysPlain (fields decode c) := by
  refine plain_bind (plain_look (Registry.plain_withCatalog _)) fun d => ?_
  refine plain_bind (plain_read _) fun _ => plain_bind plain_get fun _ => ?_
  refine plain_bind (plain_entries ?_ _) fun found => ?_
  · exact plain_bind (plain_read _) fun name => plain_bind (h _) fun _ => plain_pure _
  · exact plain_bind (plain_read _) fun _ => plain_pure _

theorem plain_entity (h : ∀ t, Within StaysPlain (decode t)) (c : ClassRef) :
    Within StaysPlain (entity decode c) := by
  refine plain_bind plain_get fun d => ?_
  split
  · exact plain_bind (plain_read _) fun _ => plain_pure _
  · refine plain_bind (plain_fields h c) fun found => ?_
    exact plain_bind (plain_look (Registry.plain_withCatalog _)) fun e => plain_pure _

/-- Decoding a value of a declared type makes look-ups only. -/
theorem plain_value (fuel : Nat) (declared : ValueType) : Within StaysPlain (value fuel declared) := by
  induction fuel generalizing declared with
  | zero => exact plain_throw _
  | succ fuel ih =>
    by_cases hentity : ∃ c, declared = .entity c
    · obtain ⟨c, rfl⟩ := hentity
      exact plain_entity ih c
    · rw [value]
      · refine plain_bind (plain_look (Registry.plain_codec _)) fun c => ?_
        split
        · exact plain_list (ih _)
        · refine plain_bind plain_get fun d => ?_
          dsimp only
          split
          · exact ih _
          · split
            · exact ih _
            · exact plain_leaf _
        · exact plain_leaf _
      · exact fun c h => hentity ⟨c, h⟩

end Decoder

/-- Rebuilding a record leaves a registry without suppliers and without a key as
it is, but for codecs known here. -/
theorem Registry.plain_inflate {E : Type} [Record E] (c : ClassRef) (doc : Document) :
    Within StaysPlain (inflate c doc : RegistryM E) := by
  refine staysPlain_frame.within_bind ?_ fun found => plain_withCatalog _
  exact fun r => Decoder.plain_fields (Decoder.plain_value _) c ⟨r, Reader.ofDocument doc⟩

/-- The same of the registry of a backend. -/
def Backend.StaysPlain (b b' : Backend) : Prop := b.registry.StaysPlain b'.registry

theorem Backend.staysPlain_frame : Frame StaysPlain := ⟨fun _ h => h, fun h h' hr => h' (h hr)⟩

/-- So does finding a record by its id. -/
theorem Collection.plain_findById {E : Type} [Record E] (c : Collection) (id : Option ObjectId) :
    Within Backend.StaysPlain (c.findById id : BackendM (Option E)) := by
  cases id with
  | none => exact Backend.staysPlain_frame.within_pure _
  | some id =>
    refine Backend.staysPlain_frame.within_bind (fun _ h => h) fun docs => ?_
    cases docs.head? with
    | none => exact Backend.staysPlain_frame.within_pure _
    | some doc =>
      refine Backend.staysPlain_frame.within_bind (fun b => ?_) fun _ =>
        Backend.staysPlain_frame.within_pure _
      exact Registry.plain_inflate (E := E) c.cls doc b.registry

end Folio
