import DefinitionFiles.Failure
import DefinitionFiles.Limits
import DefinitionFiles.Record

namespace DefinitionFiles

structure ReadingConfig where
  bufferSize : Nat := 65536
  limits : Limits := {}
deriving DecidableEq, Repr

structure SourceOptions where
  verbose : Bool := false
  /-- Default values of the caller, for all rows of the source. -/
  defaults : Option Record := none

structure RowPlace where
  source : String
  line : Nat
  verbose : Bool
deriving DecidableEq, Repr

def RowPlace.refuse (place : RowPlace) (refusal : Refusal) : ReadFailure :=
  .refused place.source place.line refusal

/-- What a sink made of a row: whether it took it, the row as the sink left it,
and the state of the sink after that. -/
structure Taken (σ : Type) where
  outcome : Except ReadFailure Unit
  row : Row
  state : σ

structure Sink (σ : Type) where
  start : String → SourceOptions → σ → Except ReadFailure Unit × σ :=
    fun _ _ state => (.ok (), state)
  take : Row → RowPlace → σ → Taken σ
  finish : RowPlace → σ → Except ReadFailure Unit × σ := fun _ state => (.ok (), state)

namespace Sink

def discard : Sink Unit where
  take row _ state := ⟨.ok (), row, state⟩

def ofFunction {σ : Type} (f : Row → RowPlace → σ → Except Refusal Unit × Row × σ) : Sink σ where
  take row place state :=
    let (outcome, row, state) := f row place state
    ⟨outcome.mapError place.refuse, row, state⟩

end Sink

end DefinitionFiles
