/-!
# Fields of a control word

A control word has 32 bits, cut into thirteen fields.  From the most
significant bit on they are

    AMUX(1) COND(2) ALU(2) SH(2) MBR(1) MAR(1) RD(1) WR(1) ENC(1) C(4) B(4) A(4) ADDR(8)

`Fields` gives every field a byte.  `Fields.pack` joins the bytes into a word
and refuses, naming the first field in layout order, if a byte does not fit its
field.  `ControlWord.fields` cuts a word into its fields.
-/

namespace Microcode

/-- A field of a control word. -/
inductive Field where
  | amux
  | cond
  | alu
  | sh
  | mbr
  | mar
  | rd
  | wr
  | enc
  | c
  | b
  | a
  | addr
deriving DecidableEq

namespace Field

/-- All fields from the most significant one on. -/
def layout : List Field :=
  [amux, cond, alu, sh, mbr, mar, rd, wr, enc, c, b, a, addr]

/-- The name of a field in listings. -/
def name : Field → String
  | amux => "AMUX"
  | cond => "COND"
  | alu => "ALU"
  | sh => "SH"
  | mbr => "MBR"
  | mar => "MAR"
  | rd => "RD"
  | wr => "WR"
  | enc => "ENC"
  | c => "C"
  | b => "B"
  | a => "A"
  | addr => "ADDR"

/-- The number of bits of a field. -/
def width : Field → Nat
  | amux | mbr | mar | rd | wr | enc => 1
  | cond | alu | sh => 2
  | c | b | a => 4
  | addr => 8

/-- The number of bits to the right of a field. -/
def shift : Field → Nat
  | amux => 31
  | cond => 29
  | alu => 27
  | sh => 25
  | mbr => 24
  | mar => 23
  | rd => 22
  | wr => 21
  | enc => 20
  | c => 16
  | b => 12
  | a => 8
  | addr => 0

/-- The number of values of a field. -/
def capacity (f : Field) : Nat :=
  1 <<< f.width

theorem mem_layout
    (f : Field) :
    f ∈ layout := by
  cases f <;> decide

/-- The number of bits of some fields together. -/
def totalWidth (fs : List Field) : Nat :=
  fs.foldr (fun f bits => f.width + bits) 0

/-- The fields fill the word. -/
theorem totalWidth_layout :
    totalWidth layout = 32 := by
  decide

/-- A field stands left of the fields that follow it in the layout. -/
theorem shift_eq_totalWidth
    (f : Field) :
    f.shift = totalWidth (layout.dropWhile (fun g => g != f)).tail := by
  cases f <;> decide

end Field

/-- A packed control word. -/
structure ControlWord where
  bits : UInt32
deriving DecidableEq

/-- The word that stops the machine: all bits set. -/
def ControlWord.halt : ControlWord :=
  ⟨0xFFFFFFFF⟩

/-- A byte for every field. -/
abbrev Fields := Field → UInt8

/-- A byte that does not fit its field. -/
structure Overflow where
  field : Field
  value : UInt8
deriving DecidableEq

/-- The wording of an overflow. -/
def Overflow.message (o : Overflow) : String :=
  "field " ++ o.field.name ++ " overflows " ++ o.field.width.repr ++ " bits: " ++
    o.value.toNat.repr

namespace Fields

/-- Whether the byte of a field needs more bits than the field has. -/
def overflows (v : Fields) (f : Field) : Bool :=
  decide (f.capacity ≤ (v f).toNat)

/-- The number that the fields spell, each appended to those before it. -/
def toNat (v : Fields) : Nat :=
  Field.layout.foldl (fun word f => (word <<< f.width) + (v f).toNat) 0

/-- The word of the fields, or the first field that overflows. -/
def pack (v : Fields) : Except Overflow ControlWord :=
  match Field.layout.find? v.overflows with
  | some f => .error ⟨f, v f⟩
  | none => .ok ⟨UInt32.ofNat v.toNat⟩

end Fields

/-- The fields of a word. -/
def ControlWord.fields (w : ControlWord) : Fields :=
  fun f => UInt8.ofNat ((w.bits.toNat >>> f.shift) % f.capacity)

end Microcode
