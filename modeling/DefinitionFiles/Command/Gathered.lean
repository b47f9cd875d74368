import DefinitionFiles.Mapping.Sink

namespace DefinitionFiles.Command

structure GatheredRecord where
  source : String
  line : Nat
  main : Record
  subs : List Record

structure Gathered where
  latest : List GatheredRecord := []
  defaults : Nat := 0

def Gathered.records (gathered : Gathered) : List GatheredRecord := gathered.latest.reverse

/-- Keeps every data row under headers that have some required columns. File names
may state defaults. -/
def gatherer (required : List String) : Handler Gathered where
  takeRecord main subs ctx gathered :=
    (.ok (), { gathered with latest := ⟨ctx.source, ctx.line, main, subs⟩ :: gathered.latest })
  requiredColumns _ := required
  takeDefaults _ _ _ gathered := (.ok (), { gathered with defaults := gathered.defaults + 1 })
  deviceName name _ := DeviceName.parse name

def nothingGathered : MappingState Gathered := { handler := {} }

end DefinitionFiles.Command
