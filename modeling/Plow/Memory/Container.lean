import Plow.Lib.Results

/-!
# The header of a safetensors file

The parser reads the header of one shard and lists its tensors after those of the shards before it.
It computes byte counts and offsets in words of 64 bits.  So what it lists is what the header says
just when none of these numbers passes a word (`parseHeader_faithful_iff`).
-/

namespace Plow.Container
open Lib List

inductive DType
  | bf16 | f16 | f32 | f64 | f8E4M3 | f8E5M2 | i8 | u8 | i16 | u16 | i32 | u32 | i64 | u64 | bool
  deriving DecidableEq

namespace DType

def size : DType → ℕ
  | f8E4M3 | f8E5M2 | i8 | u8 | bool => 1
  | bf16 | f16 | i16 | u16 => 2
  | f32 | i32 | u32 => 4
  | f64 | i64 | u64 => 8

def parse : String → Option DType
  | "BF16" => some bf16
  | "F16" => some f16
  | "F32" => some f32
  | "F64" => some f64
  | "F8_E4M3" => some f8E4M3
  | "F8_E5M2" => some f8E5M2
  | "I8" => some i8
  | "U8" => some u8
  | "I16" => some i16
  | "U16" => some u16
  | "I32" => some i32
  | "U32" => some u32
  | "I64" => some i64
  | "U64" => some u64
  | "BOOL" => some bool
  | _ => none

end DType

structure TensorDesc where
  name : String
  dtype : DType
  shape : List UInt64
  byteRange : UInt64 × UInt64
  shard : UInt16
  deriving DecidableEq

inductive Json
  | null
  | bool (b : Bool)
  -- a number has a word's value unless it is negative or a fraction
  | number (word : Option UInt64)
  | string (s : String)
  | array (l : List Json)
  | object (l : List (String × Json))

namespace Json

def get (key : String) : Json → Json
  | object l => (l.lookup key).getD null
  | _ => null

def asStr : Json → Option String
  | string s => some s
  | _ => none

def asArray : Json → Option (List Json)
  | array l => some l
  | _ => none

def asU64 : Json → Option UInt64
  | number word => word
  | _ => none

end Json

/-- what is wrong with an entry of the header -/
inductive Why
  | noDtype
  | unsupported (dtype : String)
  | noShape
  | badExtent
  | noOffsets
  | badOffset (i : ℕ)
  | inverted (a b : UInt64)
  | short (shape : List UInt64) (dtype : String) (want declared : UInt64)
  | truncated (start stop : UInt64) (len : ℕ)
  | duplicate (shard : UInt16)
  deriving DecidableEq

inductive HeaderError (ε : Type)
  | tooShort (len : ℕ)
  | headerLength (hlen : UInt64) (len : ℕ)
  | json (source : ε)
  | notObject
  | tensor (name : String) (why : Why)

/-- a mapped file; a slice has less than `2^63` bytes -/
structure Mapped where
  bytes : List UInt8
  len_lt : bytes.length < 2 ^ 63

/-- the tensors of the shards read so far, and by name the index of each -/
structure Listing where
  tensors : List TensorDesc
  byName : String → Option ℕ
  spec : ∀ name i, byName name = some i ↔ ∃ t, tensors[i]? = some t ∧ t.name = name

namespace Listing

def empty : Listing := ⟨[], fun _ => none, by simp⟩

variable {c : Listing}

theorem lt_length {name : String} {i : ℕ} (h : c.byName name = some i) : i < c.tensors.length := by
  obtain ⟨t, ht, -⟩ := (c.spec name i).mp h
  exact (List.getElem?_eq_some_iff.mp ht).1

theorem names_nodup (c : Listing) : (c.tensors.map TensorDesc.name).Nodup := by
  have hat : ∀ i (h : i < c.tensors.length), c.byName c.tensors[i].name = some i := fun i h =>
    (c.spec _ i).mpr ⟨_, getElem?_eq_getElem h, rfl⟩
  refine pairwise_iff_getElem.mpr fun i j hi hj hij heq => ?_
  rw [length_map] at hi hj
  rw [getElem_map, getElem_map] at heq
  have h := hat i hi
  rw [heq, hat j hj] at h
  exact absurd (Option.some.inj h) (Nat.ne_of_gt hij)

theorem push_spec {t : TensorDesc} (hn : c.byName t.name = none) (name : String) (i : ℕ) :
    Function.update c.byName t.name (some c.tensors.length) name = some i ↔
      ∃ u, (c.tensors ++ [t])[i]? = some u ∧ u.name = name := by
  by_cases hname : name = t.name
  · subst hname
    have hold : ∀ u, c.tensors[i]? = some u → u.name ≠ t.name := fun u hu he =>
      nomatch hn.symm.trans ((c.spec _ i).mpr ⟨u, hu, he⟩)
    rw [Function.update_self]
    grind
  · have hs := c.spec name i
    rw [Function.update_of_ne hname, hs]
    grind

def push (c : Listing) (t : TensorDesc) : Except Why Listing :=
  match h : c.byName t.name with
  | some prev =>
    have := lt_length h
    .error (.duplicate c.tensors[prev].shard)
  | none => .ok ⟨c.tensors ++ [t], Function.update c.byName t.name (some c.tensors.length), push_spec h⟩

theorem push_tensors {c' : Listing} {t : TensorDesc} (h : c.push t = .ok c') :
    c'.tensors = c.tensors ++ [t] := by
  unfold push at h
  split at h
  · cases h
  · cases h; rfl

end Listing

/-- what an entry says of its tensor -/
structure Fields where
  dtypeName : String
  dtype : DType
  shape : List UInt64
  a : UInt64
  b : UInt64

def need {ε α : Type} (x : Option α) (e : ε) : Except ε α := x.elim (.error e) .ok

def fields (v : Json) : Except Why Fields := do
  let name ← need (v.get "dtype").asStr .noDtype
  let dtype ← need (DType.parse name) (.unsupported name)
  let extents ← need (v.get "shape").asArray .noShape
  let shape ← need (extents.mapM Json.asU64) .badExtent
  let off ← need ((v.get "data_offsets").asArray.filter (·.length = 2)) .noOffsets
  let a ← need (off[0]?.bind Json.asU64) (.badOffset 0)
  let b ← need (off[1]?.bind Json.asU64) (.badOffset 1)
  return ⟨name, dtype, shape, a, b⟩

namespace Fields
variable (f : Fields)

def want : UInt64 := f.shape.foldl (· * ·) 1 * UInt64.ofNat f.dtype.size

/-- the bytes of the shape, not cut to a word -/
def nbytes : ℕ := (f.shape.map UInt64.toNat).prod * f.dtype.size

def desc (data0 : UInt64) (shard : UInt16) (name : String) : TensorDesc :=
  ⟨name, f.dtype, f.shape, (data0 + f.a, data0 + f.b), shard⟩

end Fields

section
variable (len : ℕ) (shard : UInt16) (data0 : UInt64)

def parseTensor (c : Listing) (e : String × Json) : Except Why Listing := do
  let f ← fields e.2
  ensure (¬ f.b < f.a) (.inverted f.a f.b)
  ensure (f.b - f.a = f.want) (.short f.shape f.dtypeName f.want (f.b - f.a))
  ensure ((data0 + f.b).toNat ≤ len) (.truncated (data0 + f.a) (data0 + f.b) len)
  c.push (f.desc data0 shard e.1)

def isTensor (e : String × Json) : Bool := e.1 ≠ "__metadata__"

def parseEntry {ε : Type} (c : Listing) (e : String × Json) : Except (HeaderError ε) Listing :=
  if isTensor e then (parseTensor len shard data0 c e).mapError (.tensor e.1) else .ok c

end

def fromLeBytes (l : List UInt8) : ℕ := l.foldr (fun b n => b.toNat + 256 * n) 0

section
variable {ε : Type} (fromSlice : List UInt8 → Except ε Json) (file : Mapped)

/-- the start of the data, and the entries of the header -/
def header : Except (HeaderError ε) (UInt64 × List (String × Json)) := do
  let len := file.bytes.length
  ensure (8 ≤ len) (.tooShort len)
  let hlen := UInt64.ofNat (fromLeBytes (file.bytes.take 8))
  ensure (8 + hlen.toNat < 2 ^ 64 ∧ 8 + hlen.toNat ≤ len) (.headerLength hlen len)
  match ← (fromSlice ((file.bytes.take (8 + hlen.toNat)).drop 8)).mapError .json with
  | .object l => return (8 + hlen, l)
  | _ => .error .notObject

def parseHeader (shard : UInt16) (c : Listing) : Except (HeaderError ε) Listing := do
  let (data0, obj) ← header fromSlice file
  obj.foldlM (parseEntry file.bytes.length shard data0) c

end

/-! ### What is listed is what the header says -/

/-- The bytes of the tensor are those the entry gives it, in the file and as many as its shape has. -/
def Exact (len : ℕ) (data0 : UInt64) (e : String × Json) (t : TensorDesc) : Prop :=
  ∃ f, fields e.2 = .ok f ∧ t.name = e.1 ∧ t.dtype = f.dtype ∧ t.shape = f.shape ∧
    t.byteRange.1.toNat = data0.toNat + f.a.toNat ∧ t.byteRange.2.toNat = data0.toNat + f.b.toNat ∧
    f.a ≤ f.b ∧ t.byteRange.2.toNat ≤ len ∧ f.b.toNat - f.a.toNat = f.nbytes

/-- The bytes of the shape and the end of the tensor are words. -/
def FitsWords (data0 : UInt64) (e : String × Json) : Prop :=
  ∀ f, fields e.2 = .ok f → f.nbytes < 2 ^ 64 ∧ data0.toNat + f.b.toNat < 2 ^ 64

/-- The tensors after those of `c` are, one for one, those of the header, and no name comes twice. -/
def Faithful {ε : Type} (fromSlice : List UInt8 → Except ε Json) (file : Mapped) (c c' : Listing) :
    Prop :=
  (c'.tensors.map TensorDesc.name).Nodup ∧ c.tensors <+: c'.tensors ∧
    ∃ data0 obj, header fromSlice file = .ok (data0, obj) ∧
      Forall₂ (Exact file.bytes.length data0) (obj.filter isTensor)
        (c'.tensors.drop c.tensors.length)

/-- No tensor of the header passes a word. -/
def NoWrap {ε : Type} (fromSlice : List UInt8 → Except ε Json) (file : Mapped) : Prop :=
  ∃ data0 obj, header fromSlice file = .ok (data0, obj) ∧
    ∀ e ∈ obj.filter isTensor, FitsWords data0 e

theorem toNat_foldl_mul (l : List UInt64) (x : UInt64) :
    (l.foldl (· * ·) x).toNat = x.toNat * (l.map UInt64.toNat).prod % 2 ^ 64 := by
  induction l generalizing x with
  | nil => simp [Nat.mod_eq_of_lt x.toNat_lt]
  | cons y l ih =>
    rw [foldl_cons, ih, UInt64.toNat_mul, Nat.mod_mul_mod, map_cons, prod_cons, mul_assoc]

theorem toNat_want (f : Fields) : f.want.toNat = f.nbytes % 2 ^ 64 := by
  have hs : (UInt64.ofNat f.dtype.size).toNat = f.dtype.size := by
    cases f.dtype <;> rfl
  rw [Fields.want, UInt64.toNat_mul, toNat_foldl_mul, hs, Nat.mod_mul_mod]
  simp [Fields.nbytes]

theorem mapError_ok {ε ε' α : Type} {g : ε → ε'} {x : Except ε α} {a : α} :
    x.mapError g = .ok a ↔ x = .ok a := by
  cases x with
  | error e => exact ⟨(fun h => nomatch h), (fun h => nomatch h)⟩
  | ok b => exact ⟨fun h => by cases h; rfl, fun h => by cases h; rfl⟩

section
variable {len : ℕ} {shard : UInt16} {data0 : UInt64} {c c' : Listing} {e : String × Json}
  {t : TensorDesc}

/-- what is checked of an entry that is listed -/
def Checked (len : ℕ) (shard : UInt16) (data0 : UInt64) (e : String × Json) (t : TensorDesc) : Prop :=
  ∃ f, fields e.2 = .ok f ∧ ¬ f.b < f.a ∧ f.b - f.a = f.want ∧ (data0 + f.b).toNat ≤ len ∧
    t = f.desc data0 shard e.1

theorem parseTensor_ok (h : parseTensor len shard data0 c e = .ok c') :
    ∃ t, Checked len shard data0 e t ∧ c'.tensors = c.tensors ++ [t] := by
  obtain ⟨f, hf, h⟩ := bind_ok.mp h
  obtain ⟨_, h1, h⟩ := bind_ok.mp h
  obtain ⟨_, h2, h⟩ := bind_ok.mp h
  obtain ⟨_, h3, h⟩ := bind_ok.mp h
  exact ⟨_, ⟨f, hf, ensure_ok.mp h1, ensure_ok.mp h2, ensure_ok.mp h3, rfl⟩,
    Listing.push_tensors h⟩

theorem parseEntries_ok {ε : Type} {obj : List (String × Json)}
    (h : obj.foldlM (parseEntry (ε := ε) len shard data0) c = .ok c') :
    ∃ ts, c'.tensors = c.tensors ++ ts ∧
      Forall₂ (Checked len shard data0) (obj.filter isTensor) ts := by
  refine exceptFoldlM_ind (P := fun done d => ∃ ts, d.tensors = c.tensors ++ ts ∧
    Forall₂ (Checked len shard data0) (done.filter isTensor) ts) h ⟨[], (append_nil _).symm, .nil⟩ ?_
  intro done e d d' _ ⟨ts, hts, hall⟩ he
  rw [filter_append]
  unfold parseEntry at he
  split at he
  · next hm =>
    obtain ⟨t, ht, hd'⟩ := parseTensor_ok (mapError_ok.mp he)
    refine ⟨ts ++ [t], by rw [hd', hts, append_assoc], ?_⟩
    rw [filter_cons_of_pos hm, filter_nil]
    exact rel_append hall (.cons ht .nil)
  · next hm =>
    cases he
    rw [filter_cons_of_neg hm, filter_nil, append_nil]
    exact ⟨ts, hts, hall⟩

/-- A sum or a product that passes a word is not what the entry says. -/
theorem Checked.exact_iff (h : Checked len shard data0 e t) (hlen : len < 2 ^ 64) :
    Exact len data0 e t ↔ FitsWords data0 e := by
  obtain ⟨f, hf, hab, hwant, hend, rfl⟩ := h
  have hle : f.a ≤ f.b := UInt64.not_lt.mp hab
  have hsub : f.b.toNat - f.a.toNat = f.nbytes % 2 ^ 64 := by
    rw [← toNat_want, ← hwant, UInt64.toNat_sub_of_le _ _ hle]
  have hadd : ∀ x : UInt64, (data0 + x).toNat = (data0.toNat + x.toNat) % 2 ^ 64 := fun x =>
    UInt64.toNat_add _ _
  have hle' : f.a.toNat ≤ f.b.toNat := UInt64.le_iff_toNat_le.mp hle
  constructor
  · intro ⟨g, hg, _, _, _, _, hstop, _, hin, hn⟩ g' hg'
    cases hf.symm.trans hg
    cases hf.symm.trans hg'
    rw [hstop] at hin
    exact ⟨by omega, by omega⟩
  · intro hfit
    obtain ⟨hn, hb'⟩ := hfit f hf
    refine ⟨f, hf, rfl, rfl, rfl, ?_, ?_, hle, hend, ?_⟩
    · exact (hadd f.a).trans (Nat.mod_eq_of_lt (by omega))
    · exact (hadd f.b).trans (Nat.mod_eq_of_lt hb')
    · rw [hsub, Nat.mod_eq_of_lt hn]

end

theorem forall₂_iff {α β : Type} {R S : α → β → Prop} {p : α → Prop} {l : List α} {l' : List β}
    (h : Forall₂ R l l') (hp : ∀ x y, R x y → (S x y ↔ p x)) :
    Forall₂ S l l' ↔ ∀ x ∈ l, p x := by
  induction h with
  | nil => simp
  | cons hxy _ ih => rw [forall₂_cons, forall_mem_cons, ih, hp _ _ hxy]

theorem parseHeader_faithful_iff {ε : Type} {fromSlice : List UInt8 → Except ε Json} {file : Mapped}
    {shard : UInt16} {c c' : Listing} (h : parseHeader fromSlice file shard c = .ok c') :
    Faithful fromSlice file c c' ↔ NoWrap fromSlice file := by
  obtain ⟨⟨data0, obj⟩, hobj, h⟩ := bind_ok.mp h
  obtain ⟨ts, hts, hall⟩ := parseEntries_ok h
  have hlen : file.bytes.length < 2 ^ 64 := by have := file.len_lt; omega
  have hiff := forall₂_iff hall fun e t he => he.exact_iff hlen
  have hdrop : c'.tensors.drop c.tensors.length = ts := by rw [hts, drop_left]
  constructor
  · intro ⟨_, _, d, o, ho, hex⟩
    cases hobj.symm.trans ho
    exact ⟨_, _, hobj, hiff.mp (hdrop ▸ hex)⟩
  · intro ⟨d, o, ho, hfit⟩
    cases hobj.symm.trans ho
    exact ⟨c'.names_nodup, ⟨ts, hts.symm⟩, _, _, hobj, hdrop ▸ hiff.mpr hfit⟩

/-- a shape whose bytes pass a word just to zero -/
def wrapText : String :=
  "\x7b\"w\":\x7b\"dtype\":\"F32\",\"shape\":[4294967296,4294967296],\"data_offsets\":[0,0]\x7d\x7d"

def wrapBytes : List UInt8 := wrapText.toUTF8.data.toList

def wrapFile : Mapped := ⟨UInt8.ofNat wrapBytes.length :: replicate 7 0 ++ wrapBytes, by decide +kernel⟩

def readWrap (l : List UInt8) : Except Unit Json :=
  let words (l : List UInt64) : Json := .array (l.map fun n => .number (some n))
  if l = wrapBytes then
    .ok (.object [("w", .object [("dtype", .string "F32"), ("shape", words [2 ^ 32, 2 ^ 32]),
      ("data_offsets", words [0, 0])])])
  else .error ()

theorem parseHeader_faithful_iff_wrap : ∃ c, parseHeader readWrap wrapFile 0 .empty = .ok c ∧
    (Faithful readWrap wrapFile .empty c ↔ NoWrap readWrap wrapFile) :=
  ⟨_, rfl, parseHeader_faithful_iff rfl⟩

theorem parseHeader_wraps : ∃ c, parseHeader readWrap wrapFile 0 .empty = .ok c ∧
    ¬ Faithful readWrap wrapFile .empty c := by
  refine ⟨_, rfl, fun ⟨_, _, d, o, ho, hex⟩ => ?_⟩
  cases ho
  obtain ⟨f, hf, h⟩ : Exact _ _ _ _ := (forall₂_cons.mp hex).1
  cases hf
  exact absurd h.2.2.2.2.2.2.2 (by decide +kernel)

end Plow.Container
