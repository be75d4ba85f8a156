import Folio.Bytes
import Folio.Cbor.Decode
import Folio.Cbor.Encode
import Folio.Cbor.Head
import Folio.Collection.Basic
import Folio.Collection.DefunctView
import Folio.Collection.Save
import Folio.Config
import Folio.Crypto.Aes
import Folio.Crypto.Gcm
import Folio.Crypto.Key
import Folio.Crypto.Sha256
import Folio.Entity.Basic
import Folio.Entity.FieldValue
import Folio.Entity.Record
import Folio.Entity.Written
import Folio.Exchange.Field
import Folio.Exchange.Plain
import Folio.Exchange.Query
import Folio.Exchange.Schema
import Folio.Exchange.Service
import Folio.Exchange.Value
import Folio.Failure
import Folio.Fault
import Folio.Image
import Folio.Keyed
import Folio.Number.Floating
import Folio.Number.Shortest
import Folio.Number.Written
import Folio.ObjectId
import Folio.Proofs.Cbor.Alike
import Folio.Proofs.Cbor.Cutting
import Folio.Proofs.Cbor.KeyOrder
import Folio.Proofs.Cbor.Progress
import Folio.Proofs.Cbor.Reading
import Folio.Proofs.Cbor.RoundTrip
import Folio.Proofs.Cbor.Taking
import Folio.Proofs.Cbor.Variants
import Folio.Proofs.Cbor.Zeros
import Folio.Proofs.Collection.Batches
import Folio.Proofs.Collection.Deleting
import Folio.Proofs.Collection.Failing
import Folio.Proofs.Collection.Finding
import Folio.Proofs.Collection.Labels
import Folio.Proofs.Collection.Marking
import Folio.Proofs.Collection.Puts
import Folio.Proofs.Collection.Rereading
import Folio.Proofs.Collection.Saving
import Folio.Proofs.Collection.Scoped
import Folio.Proofs.Collection.Stamps
import Folio.Proofs.Collection.Times
import Folio.Proofs.Collection.Writing
import Folio.Proofs.Crypto.Sealing
import Folio.Proofs.Entity.Base
import Folio.Proofs.Entity.Bench
import Folio.Proofs.Entity.Checked
import Folio.Proofs.Entity.Features
import Folio.Proofs.Entity.Marks
import Folio.Proofs.Entity.Parts
import Folio.Proofs.Entity.Reachable
import Folio.Proofs.Entity.Storable
import Folio.Proofs.Entity.StoredForm
import Folio.Proofs.Entity.Tidy
import Folio.Proofs.Image
import Folio.Proofs.Keyed
import Folio.Proofs.Number.Rounding
import Folio.Proofs.Number.Widening
import Folio.Proofs.ObjectId
import Folio.Proofs.Registry.Decoding
import Folio.Proofs.Registry.Documents
import Folio.Proofs.Registry.Encodable
import Folio.Proofs.Registry.Encoding
import Folio.Proofs.Registry.Exact
import Folio.Proofs.Registry.Fields
import Folio.Proofs.Registry.Lookups
import Folio.Proofs.Registry.Predicted
import Folio.Proofs.Registry.Reload
import Folio.Proofs.Registry.Reread
import Folio.Proofs.Registry.Restored
import Folio.Proofs.Registry.Seeding
import Folio.Proofs.Registry.Settled
import Folio.Proofs.Registry.Singly
import Folio.Proofs.Registry.Supplied
import Folio.Proofs.Run
import Folio.Proofs.Schema.Ancestry
import Folio.Proofs.Schema.Descriptors
import Folio.Proofs.Schema.Methods
import Folio.Proofs.Schema.Named
import Folio.Proofs.Schema.Properties
import Folio.Proofs.Schema.Setters
import Folio.Proofs.Schema.SnakeCase
import Folio.Proofs.Service.Course
import Folio.Proofs.Service.Deletes
import Folio.Proofs.Service.Labelling
import Folio.Proofs.Service.Lasting
import Folio.Proofs.Service.Limits
import Folio.Proofs.Service.Places
import Folio.Proofs.Service.Resaving
import Folio.Proofs.Service.Saves
import Folio.Proofs.Service.Sequence
import Folio.Proofs.Service.Stages
import Folio.Proofs.Service.Views
import Folio.Proofs.Store.Addressing
import Folio.Proofs.Store.Altering
import Folio.Proofs.Store.Batch
import Folio.Proofs.Store.Changes
import Folio.Proofs.Store.Counting
import Folio.Proofs.Store.Distinct
import Folio.Proofs.Store.Failing
import Folio.Proofs.Store.Hidden
import Folio.Proofs.Store.Identity
import Folio.Proofs.Store.Inserted
import Folio.Proofs.Store.Ledger
import Folio.Proofs.Store.Ordering
import Folio.Proofs.Store.Placing
import Folio.Proofs.Store.Readable
import Folio.Proofs.Store.Refinement
import Folio.Proofs.Store.Requests
import Folio.Proofs.Store.Revising
import Folio.Proofs.Store.Rewritten
import Folio.Proofs.Store.Selecting
import Folio.Proofs.Store.Sorting
import Folio.Proofs.Store.Stopped
import Folio.Proofs.Store.Tombstones
import Folio.Proofs.Stream.Calls
import Folio.Proofs.Stream.Copying
import Folio.Proofs.Stream.Refused
import Folio.Proofs.Stream.Visits
import Folio.Proofs.Stream.Words
import Folio.Proofs.Value.Arrangement
import Folio.Proofs.Value.Comparing
import Folio.Proofs.Value.Equality
import Folio.Proofs.Value.Everywhere
import Folio.Proofs.Value.Gathering
import Folio.Proofs.Value.Numbers
import Folio.Proofs.Value.OrderedMap
import Folio.Proofs.Value.Paths
import Folio.Proofs.Value.Rearranged
import Folio.Proofs.Value.Totals
import Folio.Proofs.Value.WellNamed
import Folio.Registry.Basic
import Folio.Registry.Decode
import Folio.Registry.Encode
import Folio.Schema.Basic
import Folio.Schema.Descriptor
import Folio.Schema.Lineage
import Folio.Schema.Naming
import Folio.Service.Builtin
import Folio.Service.Journal
import Folio.Service.Pipeline
import Folio.Service.Report
import Folio.Service.Validation
import Folio.Store.Basic
import Folio.Store.Calls
import Folio.Store.Fault
import Folio.Store.Filter
import Folio.Store.Query
import Folio.Store.Update
import Folio.Stream.Reader
import Folio.Stream.Writer
import Folio.Text.Blank
import Folio.Text.LetterCase
import Folio.Text.Quoted
import Folio.Text.Ranges
import Folio.Text.Unprintable
import Folio.Value.Basic
import Folio.Value.Canonical
import Folio.Value.Document
import Folio.Value.Written
