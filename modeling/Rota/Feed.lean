import Rota.Json
/-! The feed of published events.
A subscriber gets the events published since it subscribed or last looked. The feed keeps the
latest 256 of them; how many older ones are lost is counted. -/
namespace Rota

structure Event where
  topic : String
  payload : Json

structure Feed where
  isSubscribed : Bool
  /-- Events that have not been looked at, oldest first. -/
  events : List Event
  lost : Nat

namespace Feed

def capacity : Nat := 256

def new : Feed := ⟨false, [], 0⟩

def subscribe (_ : Feed) : Feed := ⟨true, [], 0⟩

def publish (f : Feed) (e : Event) : Feed :=
  if f.isSubscribed then
    let events := f.events ++ [e]
    let excess := events.length - capacity
    { f with events := events.drop excess, lost := f.lost + excess }
  else f

/-- The number of lost events and the events kept; afterwards none are left. -/
def take (f : Feed) : Nat × List Event × Feed :=
  (f.lost, f.events, { f with events := [], lost := 0 })

end Feed

end Rota
