import Mathlib.Data.List.Basic
import Mathlib.Data.Nat.Notation

/-! The wire format of protocol buffers, as far as numbers and bytes go: a message is a list of numbered fields, and
what was written is read back. -/
namespace CalcRs.Wire

/-! ### Numbers -/

/-- Seven bits a byte, the lowest first; every byte but the last has its high bit set. -/
def varintFuel : ℕ → ℕ → List UInt8
  | 0,n => [UInt8.ofNat n]
  | fuel+1,n => if n<128 then [UInt8.ofNat n] else UInt8.ofNat (n%128+128) :: varintFuel fuel (n/128)

def varint (n : ℕ) : List UInt8 := varintFuel n n

/-- The number at the front, and the bytes after it. -/
def readVarint : List UInt8 → Option (ℕ × List UInt8)
  | [] => none
  | byte :: bytes =>
    if byte.toNat<128 then some (byte.toNat,bytes)
    else (readVarint bytes).map fun r => (byte.toNat-128+128*r.1,r.2)

theorem readVarint_fuel {fuel n : ℕ} (h : n ≤ fuel) (rest : List UInt8) :
    readVarint (varintFuel fuel n ++ rest)=some (n,rest) := by
  induction fuel generalizing n with
  | zero =>
    obtain rfl := Nat.le_zero.mp h
    rfl
  | succ fuel ih =>
    rw [varintFuel]
    split_ifs with hn
    · have hbyte : (UInt8.ofNat n).toNat=n := by rw [UInt8.toNat_ofNat']; omega
      rw [List.singleton_append,readVarint,hbyte,if_pos hn]
    · have hbyte : (UInt8.ofNat (n%128+128)).toNat=n%128+128 := by rw [UInt8.toNat_ofNat']; omega
      have hrest : n/128 ≤ fuel := by omega
      have hsum : n%128+128-128+128*(n/128)=n := by omega
      rw [List.cons_append,readVarint,hbyte,if_neg (by omega),ih hrest,Option.map_some,hsum]

@[simp] theorem readVarint_varint (n : ℕ) (rest : List UInt8) : readVarint (varint n ++ rest)=some (n,rest) :=
  readVarint_fuel (Nat.le_refl n) rest

theorem varint_ne_nil (n : ℕ) : varint n≠[] := fun h => by
  have hread := readVarint_varint n []
  rw [h] at hread
  cases hread

/-! ### Fields -/

inductive Value where
  | number (n : ℕ)
  | bytes (content : List UInt8)
  deriving DecidableEq

abbrev Field := ℕ × Value

/-- The key of a field is its number and three bits for the kind of its value. -/
def writeField : Field → List UInt8
  | (k,.number n) => varint (8*k) ++ varint n
  | (k,.bytes bytes) => varint (8*k+2) ++ (varint bytes.length ++ bytes)

def write (fields : List Field) : List UInt8 := fields.flatMap writeField

def readField (input : List UInt8) : Option (Field × List UInt8) := do
  let (key,input) ← readVarint input
  let (n,input) ← readVarint input
  if key%8=0 then some ((key/8,.number n),input)
  else if key%8=2 ∧ n ≤ input.length then some ((key/8,.bytes (input.take n)),input.drop n)
  else none

def readFuel : ℕ → List UInt8 → Option (List Field)
  | _,[] => some []
  | 0,_ :: _ => none
  | fuel+1,byte :: bytes => do
    let (field,rest) ← readField (byte :: bytes)
    let fields ← readFuel fuel rest
    return field :: fields

/-- The fields of a message, if the bytes are one. -/
def read (input : List UInt8) : Option (List Field) := readFuel input.length input

@[simp] theorem readField_writeField (f : Field) (rest : List UInt8) :
    readField (writeField f ++ rest)=some (f,rest) := by
  obtain ⟨k,n | bytes⟩ := f
  · have hkind : 8*k%8=0 := by omega
    have hnumber : 8*k/8=k := by omega
    simp only [writeField,readField,List.append_assoc,readVarint_varint,Option.bind_eq_bind,Option.bind_some,hkind,
      hnumber,if_true]
  · have hkind : (8*k+2)%8=2 := by omega
    have hnumber : (8*k+2)/8=k := by omega
    have hlength : bytes.length ≤ (bytes ++ rest).length := by rw [List.length_append]; omega
    simp only [writeField,readField,List.append_assoc,readVarint_varint,Option.bind_eq_bind,Option.bind_some,hkind,
      hnumber,hlength,and_self,if_true,List.take_left,List.drop_left]
    rfl

theorem writeField_ne_nil (f : Field) : writeField f≠[] := by
  obtain ⟨k,n | bytes⟩ := f <;> exact List.append_ne_nil_of_left_ne_nil (varint_ne_nil _) _

@[simp] theorem write_nil : write []=[] := rfl

@[simp] theorem write_cons (f : Field) (fields : List Field) : write (f :: fields)=writeField f ++ write fields := rfl

@[simp] theorem write_append (fields fields' : List Field) : write (fields ++ fields')=write fields ++ write fields' :=
  List.flatMap_append

theorem length_le_write (fields : List Field) : fields.length ≤ (write fields).length := by
  induction fields with
  | nil => exact Nat.le_refl 0
  | cons f fields ih =>
    have hpos := List.length_pos_of_ne_nil (writeField_ne_nil f)
    rw [write_cons,List.length_append,List.length_cons]
    omega

theorem readFuel_write {fields : List Field} {fuel : ℕ} (h : fields.length ≤ fuel) : readFuel fuel (write fields)=some fields := by
  induction fields generalizing fuel with
  | nil => cases fuel <;> rfl
  | cons f fields ih =>
    obtain ⟨byte,bytes,hbytes⟩ := List.exists_cons_of_ne_nil (writeField_ne_nil f)
    cases fuel with
    | zero => simp at h
    | succ fuel =>
      have hfield := readField_writeField f (write fields)
      rw [hbytes,List.cons_append] at hfield
      rw [write_cons,hbytes,List.cons_append,readFuel,hfield]
      simp [ih (Nat.le_of_succ_le_succ h)]

/-- What was written is read back. -/
@[simp] theorem read_write (fields : List Field) : read (write fields)=some fields :=
  readFuel_write (length_le_write fields)

theorem write_injective : Function.Injective write := fun fields fields' h =>
  Option.some.inj ((read_write fields).symm.trans ((congrArg read h).trans (read_write fields')))

/-! ### Fields of a schema

A field that has the default value of its type is left out, and what is not there has the default value. -/

/-- Bytes, or a text. -/
def text (k : ℕ) (bytes : List UInt8) : List Field := if bytes=[] then [] else [(k,.bytes bytes)]

def flag (k : ℕ) (value : Bool) : List Field := if value then [(k,.number 1)] else []

/-- All values of a field. -/
def values (k : ℕ) (fields : List Field) : List Value := (fields.filter fun f => f.1=k).map Prod.snd

def Value.asBytes : Value → List UInt8
  | .number _ => []
  | .bytes content => content

def Value.asNumber : Value → ℕ
  | .number n => n
  | .bytes _ => 0

/-- Of a field that is there more than once the last value counts. -/
def bytesAt (k : ℕ) (fields : List Field) : List UInt8 := ((values k fields).getLast?.map Value.asBytes).getD []

def flagAt (k : ℕ) (fields : List Field) : Bool := ((values k fields).getLast?.map Value.asNumber).getD 0≠0

/-- The values of a repeated field. -/
def repeatedAt (k : ℕ) (fields : List Field) : List (List UInt8) := (values k fields).map Value.asBytes

@[simp] theorem values_nil (k : ℕ) : values k []=[] := rfl

@[simp] theorem values_append (k : ℕ) (fields fields' : List Field) :
    values k (fields ++ fields')=values k fields ++ values k fields' := by simp [values]

@[simp] theorem values_cons (k : ℕ) (f : Field) (fields : List Field) :
    values k (f :: fields)=(if f.1=k then [f.2] else []) ++ values k fields := by
  unfold values
  rw [List.filter_cons]
  split_ifs <;> simp_all

theorem values_text_of_ne {j k : ℕ} (h : j≠k) (bytes : List UInt8) : values k (text j bytes)=[] := by
  unfold text
  split_ifs <;> simp [h]

theorem values_flag_of_ne {j k : ℕ} (h : j≠k) (value : Bool) : values k (flag j value)=[] := by
  unfold flag
  split_ifs <;> simp [h]

theorem bytesAt_of_values {k : ℕ} {fields : List Field} {bytes : List UInt8}
    (h : values k fields=values k (text k bytes)) : bytesAt k fields=bytes := by
  rw [bytesAt,h]
  unfold text
  split_ifs with hb
  · exact hb.symm
  · simp [Value.asBytes]

theorem flagAt_of_values {k : ℕ} {fields : List Field} {value : Bool}
    (h : values k fields=values k (flag k value)) : flagAt k fields=value := by
  rw [flagAt,h]
  cases value <;> simp [flag,Value.asNumber]

section

variable {α : Type} (content : α → List UInt8)

theorem values_repeated (k : ℕ) (xs : List α) :
    values k (xs.map fun x => (k,Value.bytes (content x)))=xs.map fun x => Value.bytes (content x) := by
  induction xs with
  | nil => rfl
  | cons x xs ih => simp [ih]

theorem values_repeated_of_ne {j k : ℕ} (h : j≠k) (xs : List α) :
    values k (xs.map fun x => (j,Value.bytes (content x)))=[] := by
  induction xs with
  | nil => rfl
  | cons x xs ih => simp [h,ih]

/-- Messages that are read one by one. -/
theorem mapM_of_read {read : List UInt8 → Option α} (h : ∀ x, read (content x)=some x) (xs : List α) :
    (xs.map content).mapM read=some xs := by
  induction xs with
  | nil => rfl
  | cons x xs ih => simp [h x,ih]

end

end CalcRs.Wire
