import Qtalk.Codec.Encoder

/-!
# Histories of messages

What a list of messages adds up to: the bytes of its data, the credit it gives by window
updates, and the credit it gives a sender in all.
-/

namespace Qtalk.Codec.Message

def isOpen : Message → Bool
  | .openMsg _ => true
  | _ => false

def isConfirm : Message → Bool
  | .openConfirm _ => true
  | _ => false

def isFailure : Message → Bool
  | .openFailure _ => true
  | _ => false

/-- An OpenConfirm or an OpenFailure. -/
def isResponse (m : Message) : Bool := m.isConfirm || m.isFailure

def isData : Message → Bool
  | .data _ => true
  | _ => false

def isEOF : Message → Bool
  | .eof _ => true
  | _ => false

def isClose : Message → Bool
  | .close _ => true
  | _ => false

/-- What a window update gives. -/
def adjustment : Message → Nat
  | .windowAdjust m => m.additionalBytes.toNat
  | _ => 0

/-- The bound a message sets for the packets of its receiver. -/
def maxPacket : Message → Nat
  | .openMsg m => m.maxPacketSize.toNat
  | .openConfirm m => m.maxPacketSize.toNat
  | _ => 0

/-- What the receiver of the message may send more. -/
def allowance : Message → Nat
  | .openMsg m => m.windowSize.toNat
  | .openConfirm m => m.windowSize.toNat
  | .windowAdjust m => m.additionalBytes.toNat
  | _ => 0

end Qtalk.Codec.Message

namespace Qtalk.Mux
open Qtalk.Codec

/-- The bytes of the data messages of a list. -/
def dataOf (l : List Message) : List UInt8 := l.flatMap body

/-- The window updates of a list. -/
def adjustOf (l : List Message) : Nat := (l.map Message.adjustment).sum

/-- The credit a list gives. -/
def creditOf (l : List Message) : Nat := (l.map Message.allowance).sum

@[simp] theorem dataOf_nil : dataOf [] = [] := rfl

@[simp] theorem adjustOf_nil : adjustOf [] = 0 := rfl

@[simp] theorem creditOf_nil : creditOf [] = 0 := rfl

@[simp] theorem dataOf_cons (m : Message) (l : List Message) :
    dataOf (m :: l) = body m ++ dataOf l := rfl

@[simp] theorem adjustOf_cons (m : Message) (l : List Message) :
    adjustOf (m :: l) = m.adjustment + adjustOf l := rfl

@[simp] theorem creditOf_cons (m : Message) (l : List Message) :
    creditOf (m :: l) = m.allowance + creditOf l := rfl

@[simp] theorem dataOf_append (l l' : List Message) : dataOf (l ++ l') = dataOf l ++ dataOf l' :=
  List.flatMap_append

@[simp] theorem adjustOf_append (l l' : List Message) :
    adjustOf (l ++ l') = adjustOf l + adjustOf l' := by
  simp [adjustOf]

@[simp] theorem creditOf_append (l l' : List Message) :
    creditOf (l ++ l') = creditOf l + creditOf l' := by
  simp [creditOf]

end Qtalk.Mux
