set_option autoImplicit false

namespace Restack

namespace Op

def aconstNull : UInt8 := 0x01
def iconstM1 : UInt8 := 0x02
def iconst0 : UInt8 := 0x03
def lconst0 : UInt8 := 0x09
def lconst1 : UInt8 := 0x0a
def fconst0 : UInt8 := 0x0b
def fconst1 : UInt8 := 0x0c
def dconst0 : UInt8 := 0x0e
def dconst1 : UInt8 := 0x0f
def bipush : UInt8 := 0x10
def sipush : UInt8 := 0x11
def ldc : UInt8 := 0x12
def ldcW : UInt8 := 0x13
def ldc2W : UInt8 := 0x14
def iload : UInt8 := 0x15
def iload0 : UInt8 := 0x1a
def iaload : UInt8 := 0x2e
def aaload : UInt8 := 0x32
def istore : UInt8 := 0x36
def istore0 : UInt8 := 0x3b
def iastore : UInt8 := 0x4f
def aastore : UInt8 := 0x53
def pop : UInt8 := 0x57
def pop2 : UInt8 := 0x58
def dup : UInt8 := 0x59
def dup2 : UInt8 := 0x5c
def iadd : UInt8 := 0x60
def ladd : UInt8 := 0x61
def fadd : UInt8 := 0x62
def dadd : UInt8 := 0x63
def isub : UInt8 := 0x64
def lsub : UInt8 := 0x65
def fsub : UInt8 := 0x66
def dsub : UInt8 := 0x67
def imul : UInt8 := 0x68
def lmul : UInt8 := 0x69
def fmul : UInt8 := 0x6a
def dmul : UInt8 := 0x6b
def idiv : UInt8 := 0x6c
def ldiv : UInt8 := 0x6d
def fdiv : UInt8 := 0x6e
def ddiv : UInt8 := 0x6f
def irem : UInt8 := 0x70
def lrem : UInt8 := 0x71
def frem : UInt8 := 0x72
def drem : UInt8 := 0x73
def ineg : UInt8 := 0x74
def lneg : UInt8 := 0x75
def fneg : UInt8 := 0x76
def dneg : UInt8 := 0x77
def ishl : UInt8 := 0x78
def lshl : UInt8 := 0x79
def ishr : UInt8 := 0x7a
def lshr : UInt8 := 0x7b
def iushr : UInt8 := 0x7c
def lushr : UInt8 := 0x7d
def iand : UInt8 := 0x7e
def land : UInt8 := 0x7f
def ior : UInt8 := 0x80
def lor : UInt8 := 0x81
def ixor : UInt8 := 0x82
def lxor : UInt8 := 0x83
def i2l : UInt8 := 0x85
def i2f : UInt8 := 0x86
def i2d : UInt8 := 0x87
def l2i : UInt8 := 0x88
def l2f : UInt8 := 0x89
def l2d : UInt8 := 0x8a
def f2i : UInt8 := 0x8b
def f2l : UInt8 := 0x8c
def f2d : UInt8 := 0x8d
def d2i : UInt8 := 0x8e
def d2l : UInt8 := 0x8f
def d2f : UInt8 := 0x90
def i2b : UInt8 := 0x91
def i2c : UInt8 := 0x92
def i2s : UInt8 := 0x93
def lcmp : UInt8 := 0x94
def fcmpl : UInt8 := 0x95
def fcmpg : UInt8 := 0x96
def dcmpl : UInt8 := 0x97
def dcmpg : UInt8 := 0x98
def ifeq : UInt8 := 0x99
def ifne : UInt8 := 0x9a
def iflt : UInt8 := 0x9b
def ifge : UInt8 := 0x9c
def ifgt : UInt8 := 0x9d
def ifle : UInt8 := 0x9e
def ifIcmpeq : UInt8 := 0x9f
def ifIcmpne : UInt8 := 0xa0
def ifIcmplt : UInt8 := 0xa1
def ifIcmpge : UInt8 := 0xa2
def ifIcmpgt : UInt8 := 0xa3
def ifIcmple : UInt8 := 0xa4
def ifAcmpeq : UInt8 := 0xa5
def ifAcmpne : UInt8 := 0xa6
def goto : UInt8 := 0xa7
def tableswitch : UInt8 := 0xaa
def lookupswitch : UInt8 := 0xab
def ireturn : UInt8 := 0xac
def vreturn : UInt8 := 0xb1
def getstatic : UInt8 := 0xb2
def putstatic : UInt8 := 0xb3
def getfield : UInt8 := 0xb4
def putfield : UInt8 := 0xb5
def invokevirtual : UInt8 := 0xb6
def invokespecial : UInt8 := 0xb7
def invokestatic : UInt8 := 0xb8
def invokeinterface : UInt8 := 0xb9
def new : UInt8 := 0xbb
def newarray : UInt8 := 0xbc
def anewarray : UInt8 := 0xbd
def arraylength : UInt8 := 0xbe
def athrow : UInt8 := 0xbf
def checkcast : UInt8 := 0xc0
def instanceof : UInt8 := 0xc1
def monitorenter : UInt8 := 0xc2
def monitorexit : UInt8 := 0xc3
def wide : UInt8 := 0xc4
def ifnull : UInt8 := 0xc6
def ifnonnull : UInt8 := 0xc7
def gotoW : UInt8 := 0xc8

/-- The conditional branch with the opposite condition. Compares pair up an odd opcode with the even
one after it; the two null tests pair up the other way round. -/
def opposite? (op : UInt8) : Option UInt8 :=
  if ifeq ≤ op ∧ op ≤ ifAcmpne then some (if op % 2 = 1 then op + 1 else op - 1)
  else if op = ifnull then some ifnonnull
  else if op = ifnonnull then some ifnull
  else none

/-- Division and remainder of ints and longs are the only arithmetic that can throw. -/
def arithmeticThrows (op : UInt8) : Bool :=
  op = idiv || op = irem || op = ldiv || op = lrem

def endsMethod (op : UInt8) : Bool := (ireturn ≤ op && op ≤ vreturn) || op = athrow

end Op

end Restack
