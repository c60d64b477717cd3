import V8Multithread.Threading.ChannelOrder

/-! What the promises of the channel are settled with.

A promise is settled by the call that made it, or later by a task in its own isolate. Either way it says what
the history says of the call (`Owed`): the message of a send was taken, a request was handed this message, or
it was refused. -/
namespace V8Multithread.Threading.Channel.State
open List
variable {V : Type}

/-- What promises have been settled with, and what the tasks and the parked senders will have them settled with. -/
def promised (host : Host V) (s : State V) : List (Resolver × Settlement V) :=
  s.settled ++ (s.tasks.map Prod.snd ++ s.deleted).map (fun task => (task.resolver, task.runInternal host)) ++
    s.parkedSends.map (·, .undefined)

variable {host : Host V} {s s' : State V} {a : Action} {p : Resolver × Settlement V}

end V8Multithread.Threading.Channel.State
