/-
Canonical bytes of requests, responses and bindings (`effects/codec.rs`). A failure code is its position in the source's
declaration, as a byte.
-/
import ZenoFcis.Effects.Registry
import ZenoFcis.Effects.Simulation

namespace ZenoFcis.Effects

open Lib

def Code.byte (code : Code) : UInt8 := UInt8.ofNat code.ctorIdx

def Fault.byte (fault : Fault) : UInt8 := UInt8.ofNat fault.ctorIdx

namespace Codec

def storeBytes (store : Store) : Bytes := store.identity.bytes ++ beBytes 4 store.handle.toNat

mutual

def value : Val → Bytes
  | .unit => [0]
  | .store store => 1 :: storeBytes store
  | .hash hash => 2 :: hash.bytes
  | .bytes bytes => 3 :: frame bytes
  | .int number => 4 :: beBytes 8 number
  | .record items => 5 :: beBytes 8 items.length ++ values items
  | .choice index payload => 6 :: beBytes 8 index ++ value payload
  | .list items => 7 :: beBytes 8 items.length ++ values items

def values : List Val → Bytes
  | [] => []
  | item :: items => value item ++ values items

end

/-- canonical bytes of a request -/
def operation (operation : Operation) : Bytes := operation.port.tag :: value operation.value

def branch {α : Type} : Outcome α → Bytes
  | .ok _ => [0]
  | .refused code => [1, code.byte]
  | .notApplied fault => [2, fault.byte]
  | .unknown fault => [3, fault.byte]

/-- which way a response went -/
def responseBranch : Response → Bytes
  | .readState outcome | .reopen outcome => branch outcome
  | .commit outcome => branch outcome
  | .readHistory outcome => branch outcome
  | .readOutbox outcome => branch outcome
  | .acknowledge outcome => branch outcome
  | .send (.sent _) => [0]
  | .send (.notSent code) => [1, code.byte]
  | .send (.unknown fault) => [2, fault.byte]
  | .send (.refused code) => [3, code.byte]
  | .clock (.ok _) | .random (.ok _) | .wait (.ok _) => [0]
  | .clock (.error fault) | .random (.error fault) => [1, fault.byte]
  | .wait (.error .interrupted) => [2]
  | .wait (.error (.failed fault)) => [1, fault.byte]

/-- canonical bytes of a response, including its failure branch -/
def response (response : Response) : Bytes :=
  response.port.tag :: responseBranch response ++ (response.value.map value).getD []

/-- canonical bytes of a run's outcome with a number or no payload -/
def outcome {α : Type} (outcome : Outcome α) (payload : Option ℕ) : Bytes :=
  branch outcome ++
    match outcome, payload with
    | .ok _, some payload => beBytes 8 payload
    | _, _ => []

/-- canonical bytes of a binding -/
def binding (binding : Binding) : Bytes :=
  beBytes 8 binding.id.epoch ++ beBytes 8 binding.id.ordinal ++ [binding.port.tag] ++
    (match binding.store with
      | some store => 1 :: storeBytes store
      | none => [0]) ++
    frame binding.subject

end Codec

end ZenoFcis.Effects
