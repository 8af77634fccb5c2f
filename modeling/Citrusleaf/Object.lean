import Citrusleaf.Lib.Bytes
import Citrusleaf.Text
import Mathlib.Data.List.TakeWhile
import Mathlib.Data.UInt

/-! Objects, bins and operations as the application sees them, and the functions that
initialise an object. A pointer is an address together with the bytes behind it. -/
namespace Citrusleaf
open Lib

abbrev CfDigest := Vector UInt8 20

theorem digests_length (digests : List CfDigest) : (digests.flatMap Vector.toList).length = 20 * digests.length := by
  induction digests with
  | nil => rfl
  | cons digest digests ih =>
    rw [List.flatMap_cons,List.length_append,ih,Vector.length_toList,List.length_cons]
    omega

/-! ### `cl_rv` -/

def citrusleafFailAsyncqFull : Int := -3
def citrusleafFailTimeout : Int := -2
def citrusleafFailClient : Int := -1
def citrusleafOk : Int := 0
def citrusleafFailUnknown : Int := 1
def citrusleafFailNotfound : Int := 2

/-! ### `enum cl_type` -/

def clNull : UInt32 := 0
def clInt : UInt32 := 1
def clStr : UInt32 := 3
def clBlob : UInt32 := 4
def clJavaBlob : UInt32 := 7
def clCsharpBlob : UInt32 := 8
def clPythonBlob : UInt32 := 9
def clRubyBlob : UInt32 := 10
def clPhpBlob : UInt32 := 11

/-- The blob labels, which stand on one branch of every switch over types. -/
def isBlob (type : UInt32) : Bool :=
  [clBlob,clJavaBlob,clCsharpBlob,clPythonBlob,clRubyBlob,clPhpBlob].contains type

/-- The union of an object. -/
inductive ClUnion where
  | ptr (address : UInt64) (bytes : List UInt8)
  | i64 (value : Int64)
  deriving DecidableEq

/-- The union read as an integer: of a pointer, its address. -/
def ClUnion.toI64 : ClUnion → Int64
  | .ptr address _ => address.toInt64
  | .i64 value => value

/-- What `memcpy` reads through the union. -/
def ClUnion.copy (sz : Nat) : ClUnion → Option (List UInt8)
  | .ptr _ bytes => readBytes bytes 0 sz
  | .i64 _ => none

theorem ClUnion.copy_length {u : ClUnion} (copied : u.copy sz = some bytes) : bytes.length = sz := by
  cases u with
  | i64 value => cases copied
  | ptr address data =>
    simp only [ClUnion.copy,readBytes] at copied
    split at copied
    · obtain rfl := Option.some.inj copied
      exact List.length_take_of_le (by rw [List.length_drop]; omega)
    · cases copied

structure ClObject where
  type : UInt32
  sz : Nat
  u : ClUnion
  deriving DecidableEq

def citrusleafObjectInit (o : ClObject) : ClObject := {o with type := clNull,sz := 0}

def citrusleafObjectInitStr (o : ClObject) (address : UInt64) (str : CString) : ClObject :=
  {o with type := clStr,sz := str.length,u := .ptr address str}

def citrusleafObjectInitStr2 (o : ClObject) (address : UInt64) (str : List UInt8) : ClObject :=
  {o with type := clStr,sz := str.length,u := .ptr address str}

def citrusleafObjectInitInt (o : ClObject) (i : Int64) : ClObject :=
  {o with type := clInt,sz := 8,u := .i64 i}

def citrusleafObjectInitBlob (o : ClObject) (address : UInt64) (blob : List UInt8) : ClObject :=
  {o with type := clBlob,sz := blob.length,u := .ptr address blob}

def citrusleafObjectInitBlob2 (o : ClObject) (address : UInt64) (blob : List UInt8) (t : UInt32) : ClObject :=
  {o with type := t,sz := blob.length,u := .ptr address blob}

def citrusleafObjectInitBlobType (o : ClObject) (blobType : UInt32) (address : UInt64)
    (blob : List UInt8) : ClObject :=
  {o with type := blobType,sz := blob.length,u := .ptr address blob}

def citrusleafObjectInitNull (o : ClObject) : ClObject := {o with type := clNull,sz := 0}

/-! ### Bins -/

/-- `char bin_name[32]` -/
structure BinName where
  chars : List UInt8
  size : chars.length = 32
  deriving DecidableEq

/-- The string in the array, up to its NUL. -/
def BinName.str (name : BinName) : CString := name.chars.takeWhile (· != 0)

theorem BinName.zero_size : (List.replicate 32 (0 : UInt8)).length = 32 := List.length_replicate

/-- `char bin_name[32]` of an array that `calloc` gave. -/
def BinName.zero : BinName := ⟨List.replicate 32 0,zero_size⟩

/-- Copy a name into the array and put a NUL behind it. -/
def BinName.set (old : BinName) (name : List UInt8) : Option BinName :=
  match written : writeBytes old.chars 0 (name ++ [0]) with
  | none => none
  | some chars => some ⟨chars,(writeBytes_agree written).size ▸ old.size⟩

structure ClBin where
  binName : BinName
  object : ClObject
  deriving DecidableEq

/-- `cl_operator`, with the values of its C type that it does not list. -/
inductive ClOperator where
  | write | read | incr | mcIncr | prepend | append | mcPrepend | mcAppend | touch | mcTouch
  | other (value : UInt32)
  deriving DecidableEq

structure ClOperation where
  bin : ClBin
  op : ClOperator

/-- A name fits when its NUL does. -/
theorem BinName.set_isSome (old : BinName) (name : List UInt8) :
    (old.set name).isSome ↔ name.length < 32 := by
  have fits : 0 + (name ++ [0]).length ≤ old.chars.length ↔ name.length < 32 := by
    rw [old.size,List.length_append,List.length_singleton]
    omega
  rw [← fits]
  unfold BinName.set
  split
  · rename_i outside
    refine iff_of_false nofun fun inside => ?_
    rw [writeBytes,if_pos inside] at outside
    cases outside
  · rename_i chars written
    exact iff_of_true rfl (writeBytes_length written).2

/-- A name without a NUL that was set is the one read back. -/
theorem BinName.str_set (plain : (0 : UInt8) ∉ name) (done : BinName.set old name = some new) :
    new.str = name := by
  unfold BinName.set at done
  split at done
  · cases done
  · rename_i chars written
    obtain rfl := Option.some.inj done
    unfold writeBytes at written
    split at written
    · obtain rfl := Option.some.inj written
      have kept : name.takeWhile (· != 0) = name :=
        List.takeWhile_eq_self_iff.mpr fun c member => by
          rw [bne_iff_ne]
          exact fun zero => plain (zero ▸ member)
      rw [BinName.str]
      simp only [List.take_zero,List.nil_append,List.append_assoc]
      rw [List.takeWhile_append,kept,if_pos rfl]
      simp only [List.cons_append,List.takeWhile_cons,bne_self_eq_false,Bool.false_eq_true,if_false,
        List.append_nil]
    · cases written

end Citrusleaf
