import FrameworkAudit.Error

set_option autoImplicit false

namespace FrameworkAudit

structure Signal where
  id : Nat
  deriving DecidableEq, Repr

structure SignalBoard where
  next : Nat
  raised : List Nat
  deriving DecidableEq, Repr

namespace SignalBoard

def empty : SignalBoard := ⟨0, []⟩

def fresh (b : SignalBoard) : Signal × SignalBoard := (⟨b.next⟩, { b with next := b.next + 1 })

def raise (b : SignalBoard) (s : Signal) : SignalBoard := { b with raised := s.id :: b.raised }

def isRaised (b : SignalBoard) (s : Signal) : Bool := b.raised.contains s.id

end SignalBoard

def checkCancelled (cancelled : Bool) : Except Error Unit :=
  if cancelled then .error .cancelled else .ok ()

def SignalBoard.check (b : SignalBoard) (s : Signal) : Except Error Unit :=
  checkCancelled (b.isRaised s)

end FrameworkAudit
