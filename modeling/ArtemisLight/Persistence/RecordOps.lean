import ArtemisLight.Persistence.Position
import ArtemisLight.Persistence.Schema

/-!
# Record operations

`RecordOps` is what the writers and the replay segment use of a `Record`: the write schema, once
known, both directions of the event/row mapping, and the table.  An encode may fail at any call and
may change the record (it freezes the columns), so the record is threaded through as a state.
-/

namespace ArtemisLight

/-- The mapping between the event type `E` and its SQL rows, as the writers use it.  The laws are
what they rely on: after a successful encode the write schema is known, the record no longer changes
and gives the same row for the same event, and the row's last cell is the event's payload. -/
class RecordOps (ρ E : Type) where
  /-- The table this event type's rows are written to and replayed from. -/
  table : ρ → String
  /-- The write schema, `none` until an inferred one is frozen. -/
  schema : ρ → Option TableSchema
  /-- Encode one event as a row, freezing an inferred schema on the way. -/
  encode : ρ → E → Except Error Row × ρ
  /-- Reconstruct an event from a stored payload. -/
  decode : ρ → String → Except Error E
  /-- The event's JSON text, the last cell of its row. -/
  payload : E → String
  schema_encode : ∀ {r r' : ρ} {e : E} {row : Row},
    encode r e = (.ok row, r') → ∃ schema', schema r' = some schema' ∧ schema'.table = table r
  table_encode : ∀ {r r' : ρ} {e : E} {res : Except Error Row},
    encode r e = (res, r') → table r' = table r
  encode_again : ∀ {r r' : ρ} {e : E} {row : Row},
    encode r e = (.ok row, r') → encode r' e = (.ok row, r')
  encode_frozen : ∀ {r r' : ρ} {e : E} {row : Row},
    encode r e = (.ok row, r') → ∀ e', (encode r' e').2 = r'
  encode_payload : ∀ {r r' : ρ} {e : E} {row : Row},
    encode r e = (.ok row, r') → row.payload? = some (.text (payload e))

/-- The records in `R` encode the events in `D`. -/
def Encodes {ρ E : Type} [RecordOps ρ E] (D : E → Prop) (R : ρ → Prop) : Prop :=
  ∀ r, R r → ∀ e, D e → ∃ row r', RecordOps.encode r e = (.ok row, r') ∧ R r'

end ArtemisLight
