import Folio.Exchange.Field
import Folio.Service.Journal

/-!
# Records, services and settings as plain data

A record is written as its properties. Keys, settings and positions are read;
collections, images' formats, descriptors and journals are written.

Results:
* `keyOfPlain_null`: null stands for no key.
-/
namespace Folio

/-- A record is written as its properties. -/
instance {E : Type} [Record E] : ToPlain E := ⟨fun e => plain (Record.fields e)⟩

instance : ToPlain ImageFormat := ⟨fun
  | .png => .text "Png"
  | .jpeg => .text "Jpeg"
  | .gif => .text "Gif"
  | .bmp => .text "Bmp"
  | .webp => .text "WebP"⟩

instance : ToPlain Accessor := ⟨fun
  | .read property => plain ["read", property]
  | .write property type => plain ["write", property, type.display]
  | .clone => plain ["clone"]⟩

instance : ToPlain Descriptor := ⟨fun d => .object [("class", plain d.cls.name),
  ("properties", plain d.properties),
  ("defaults", .object (d.defaults.map fun p => (p.1, plain p.2.zero)))]⟩

instance : ToPlain Collection := ⟨fun c => plain [c.cls.name, c.name, c.scope.written]⟩

instance {E : Type} [Record E] : ToPlain (JournalEntry E) := ⟨fun
  | .seen value stored hasActions hasFields => .list [plain "seen", plain value,
      plain (stored.map fun v => [v]), plain hasActions, plain hasFields]
  | .saved e .insert => .list [plain "Insert", plain e]
  | .saved e .update => .list [plain "Update", plain e]
  | .deleted e => .list [plain "Deleted", plain e]⟩

instance : FromPlain Position := ⟨fun p => do
  match ← p.toText with
  | "first" => return .first
  | "pre" => return .pre
  | "post" => return .post
  | "last" => return .last
  | _ => throw (.expected "a position")⟩

instance : FromPlain Scope := ⟨fun p => do
  match ← p.toText with
  | "plain" => return .plain
  | "defunct" => return .defunct
  | _ => throw (.expected "a scope")⟩

/-- A listener by its word. -/
instance {E : Type} : FromPlain (Listener E (Journal E)) := ⟨fun p => do
  match ← p.toText with
  | "log" => return Journal.keeper
  | "fail" => return Journal.failing "listener failed"
  | "silent" => return Journal.silent
  | _ => throw (.expected "a listener")⟩

/-- The key that plain data gives: a secret that it is derived from, or its
bytes, which must be as many as a key has. Null is no key. -/
def keyOfPlain (p : Plain) : Except PlainFault (Except Failure (Option Key)) :=
  if p.isNull then .ok (.ok none)
  else if (p.entry "secret").isNull then do
    return (Key.ofBytes? (← (p.entry "bytes").toBytes)).map some
  else do return .ok (some (.ofSecret (← (p.entry "secret").toBytes)))

theorem keyOfPlain_null : keyOfPlain .null = .ok (.ok none) := rfl

instance : FromPlain (Except Failure (Option Key)) := ⟨fun p => keyOfPlain p⟩

/-- Bounds that are given together; the standard ones where none are. -/
def boundsOfPlain (p : Plain) (standard : List (Option Nat)) :
    Except PlainFault (List (Option Nat)) := do
  if p.isNull then return standard
  (List.range standard.length).mapM fun i => FindOptions.numberOfPlain (p.item i)

/-- The settings that plain data gives. -/
def configOfPlain (p : Plain) : Except PlainFault (Except Failure Config) := do
  let standard := Config.standard
  let name ← boundsOfPlain (p.entry "name") [standard.nameLeast, standard.nameMost]
  let description ← boundsOfPlain (p.entry "description") [standard.descriptionMost]
  return (← keyOfPlain (p.entry "key")).map fun key =>
    ⟨key, name[0]?.join, name[1]?.join, description[0]?.join⟩

instance : FromPlain (Except Failure Config) := ⟨fun p => configOfPlain p⟩

end Folio
