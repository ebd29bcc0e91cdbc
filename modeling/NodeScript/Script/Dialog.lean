import NodeScript.Script.Value

/-!
Computations that talk to a host. A `Dialog` is everything such a computation will do, for every
reply the host may give.
-/

namespace NodeScript.Script

inductive Request where
  | log (text : String)
  | prompt (message : String)
  | enter (node : String)
  | update (name : String) (value : Value)
  deriving Repr

/-- A host that is there answers; only to a prompt the text of the answer matters. -/
inductive Reply where
  | answer (text : String)
  | disconnected
  deriving DecidableEq, Repr

inductive Dialog (α : Type) where
  | done (result : α)
  | exhausted
  | ask (request : Request) (resume : Reply → Dialog α)

namespace Dialog

variable {α β : Type}

def bind (d : Dialog α) (f : α → Dialog β) : Dialog β :=
  match d with
  | done a => f a
  | exhausted => exhausted
  | ask request resume => ask request fun reply => (resume reply).bind f

instance : Monad Dialog where
  pure := done
  bind := bind

end Dialog

end NodeScript.Script
