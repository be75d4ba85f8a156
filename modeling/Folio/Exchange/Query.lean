import Folio.Exchange.Value
import Folio.Store.Calls

/-!
# Filters, updates and results as plain data

A filter, a change and a stage are lists whose first item tells the kind. The
word for a conjunction comes in two forms: one is simplified when it is read,
the other stays as it is.

Results:
* `ofPlain_all`: the filter that matches everything is one word.
-/
namespace Folio

namespace Filter

/-- A filter without parts. -/
def leafOfPlain (kind : String) (args : Plain) : Except PlainFault Filter := do
  let field := (args.item 0).toText
  let value := Value.ofPlain (args.item 1)
  match kind with
  | "all" => return all
  | "eq" => return eq (← field) (← value)
  | "ne" => return ne (← field) (← value)
  | "gt" => return gt (← field) (← value)
  | "lt" => return lt (← field) (← value)
  | "in" => return isIn (← field) (← Value.itemsOfPlain (← (args.item 1).toItems))
  | "exists" => return .exists (← field) (args.item 1).toFlag
  | "id" => return id (← ObjectId.ofPlain (args.item 0))
  | _ => throw (.expected "a kind of filter")

mutual

/-- The filter that plain data stands for. -/
def ofPlain : Plain → Except PlainFault Filter
  | .list [.text kind, .list parts] =>
    if kind = "and" then do return both (← partsOfPlain parts)
    else if kind = "AND" then do return and (← partsOfPlain parts)
    else if kind = "or" then do return or (← partsOfPlain parts)
    else .error (.expected "a kind of filter")
  | .list (.text kind :: args) => leafOfPlain kind (.list args)
  | _ => .error (.expected "a filter")

/-- The filters that the items stand for. -/
def partsOfPlain : List Plain → Except PlainFault (List Filter)
  | [] => .ok []
  | p :: rest => do return (← ofPlain p) :: (← partsOfPlain rest)

end

mutual

/-- The plain data of a filter. -/
def toPlain : Filter → Plain
  | all => .list [.text "all"]
  | eq field v => .list [.text "eq", .text field, plain v]
  | ne field v => .list [.text "ne", .text field, plain v]
  | gt field v => .list [.text "gt", .text field, plain v]
  | lt field v => .list [.text "lt", .text field, plain v]
  | isIn field vs => .list [.text "in", .text field, plain vs]
  | .exists field present => .list [.text "exists", .text field, plain present]
  | and parts => .list [.text "AND", .list (partsToPlain parts)]
  | or parts => .list [.text "or", .list (partsToPlain parts)]

/-- The plain data of each part. -/
def partsToPlain : List Filter → List Plain
  | [] => []
  | f :: rest => toPlain f :: partsToPlain rest

end

instance : ToPlain Filter := ⟨toPlain⟩

theorem ofPlain_all : ofPlain (plain all) = .ok all := rfl

end Filter

namespace Change

/-- The change that plain data stands for. -/
def ofPlain (p : Plain) : Except PlainFault Change := do
  let field ← (p.item 1).toText
  match ← (p.item 0).toText with
  | "set" => return set field (← Value.ofPlain (p.item 2))
  | "unset" => return unset field
  | "inc" => return inc field (← Value.ofPlain (p.item 2))
  | _ => throw (.expected "a kind of change")

end Change

namespace Direction

/-- The direction that plain data stands for. -/
def ofPlain (p : Plain) : Except PlainFault Direction := do
  match ← p.toText with
  | "asc" => return ascending
  | "desc" => return descending
  | _ => throw (.expected "a direction")

end Direction

namespace FindOptions

/-- A number, or none for null. -/
def numberOfPlain (p : Plain) : Except PlainFault (Option Nat) :=
  if p.isNull then .ok none else do return some (← p.toWhole).toNat

/-- The options that plain data stands for. -/
def ofPlain (p : Plain) : Except PlainFault FindOptions := do
  let order := p.entry "sort"
  let sort ← if order.isNull then pure none
    else do pure (some (← (order.item 0).toText, ← Direction.ofPlain (order.item 1)))
  return ⟨← numberOfPlain (p.entry "skip"), ← numberOfPlain (p.entry "limit"), sort⟩

end FindOptions

namespace Stage

/-- The stage that plain data stands for. -/
def ofPlain (p : Plain) : Except PlainFault Stage := do
  let arg := p.item 1
  match ← (p.item 0).toText with
  | "match" => return select (← Filter.ofPlain arg)
  | "sort" => return sort (← arg.toText) (← Direction.ofPlain (p.item 2))
  | "skip" => return skip (← arg.toWhole).toNat
  | "limit" => return limit (← arg.toWhole).toNat
  | "project" => return project (← (← arg.toItems).mapM Plain.toText)
  | "count" => return count (← arg.toText)
  | _ => throw (.expected "a kind of stage")

end Stage

namespace Version

/-- The version that plain data stands for: the one before, unless the other
one is asked for. -/
def ofPlain : Plain → Version
  | .text s => if s = "after" then after else before
  | _ => before

end Version

instance : ToPlain Ordering := ⟨fun
  | .lt => .text "Less"
  | .eq => .text "Equal"
  | .gt => .text "Greater"⟩

instance : ToPlain UpdateResult := ⟨fun r => .object [("matched", plain r.matched),
  ("modified", plain r.modified), ("upserted", plain (r.upserted.map fun v => [v]))]⟩

instance : ToPlain Calls := ⟨fun c => .object [("insert", plain c.insert), ("find", plain c.find),
  ("count", plain c.count), ("replace", plain c.replace), ("update", plain c.update),
  ("delete", plain c.delete), ("find_and_modify", plain c.findAndModify),
  ("distinct", plain c.distinct), ("aggregate", plain c.aggregate), ("writes", plain c.writes),
  ("total", plain c.total)]⟩

end Folio
