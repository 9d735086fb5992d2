import ValuationCycle.Wire.Codec

/-!
# Queries

A query asks for values held in the cache of one calculation configuration.
-/
namespace ValuationCycle
open Wire

structure CacheQuery where
  configuration : String
  specifications : List Specification
  deriving DecidableEq

namespace CacheQuery

instance : Codec CacheQuery where
  fields q := stringField "calculationConfigurationName" q.configuration ::
    q.specifications.map (objectField "valueSpecification")
  decode m := do
    let configuration ← m.requireString "calculationConfigurationName"
    let specifications ← (← m.messages "valueSpecification").mapM Codec.decode
    return ⟨configuration, specifications⟩

end CacheQuery
end ValuationCycle
