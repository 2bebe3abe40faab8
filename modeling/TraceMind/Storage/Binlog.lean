import TraceMind.Basic
import TraceMind.Foundation.Framing
import Mathlib.Data.Nat.Bitwise

namespace TraceMind.Storage

abbrev Bytes := List UInt8

abbrev Record := Str × Bytes

def magic : Bytes := [0x54, 0x4D, 0x47, 0x31]

def ver : UInt8 := 1

def varintEncode (n : ℕ) : Bytes :=
  if n >>> 7 = 0 then [(n &&& 0x7F).toUInt8]
  else ((n &&& 0x7F) ||| 0x80).toUInt8 :: varintEncode (n >>> 7)
termination_by n
decreasing_by
  simp only [Nat.shiftRight_eq_div_pow] at *
  omega

def varintDecode (shift out : ℕ) : Bytes → Option (ℕ × Bytes)
  | [] => none
  | b :: buf =>
    let out := out ||| ((b.toNat &&& 0x7F) <<< shift)
    if b.toNat &&& 0x80 = 0 then some (out, buf) else varintDecode (shift + 7) out buf

theorem and_0x7F (n : ℕ) : n &&& 0x7F = n % 128 := Nat.and_two_pow_sub_one_eq_mod n 7

theorem or_0x80 {n : ℕ} (h : n < 128) : n ||| 0x80 = n + 128 := by
  have hor := Nat.two_pow_add_eq_or_of_lt (i := 7) h 1
  rw [Nat.or_comm, Nat.add_comm]
  exact hor.symm

theorem and_0x80 (b : UInt8) : b.toNat &&& 0x80 = 0 ↔ b.toNat < 128 := by
  have hall : ∀ n < 256, n &&& 0x80 = 0 ↔ n < 128 := by decide +kernel
  exact hall b.toNat b.toNat_lt

theorem varintEncode_eq (n : ℕ) : varintEncode n = Varint.encode n := by
  induction n using Nat.strongRecOn with
  | ind n ih =>
    have hshift : n >>> 7 = n / 128 := Nat.shiftRight_eq_div_pow n 7
    rw [varintEncode, Varint.encode, and_0x7F, hshift]
    by_cases hsmall : n < 128
    · rw [if_pos (Nat.div_eq_of_lt hsmall), if_pos hsmall, Nat.mod_eq_of_lt hsmall]
    · rw [if_neg (by omega), if_neg hsmall, or_0x80 (Nat.mod_lt n (by decide)),
        ih (n / 128) (by omega)]

theorem varintDecode_eq (buf : Bytes) {shift out : ℕ} (hout : out < 2 ^ shift) :
    varintDecode shift out buf =
      (Varint.decode buf).map (fun x => (out + x.1 * 2 ^ shift, x.2)) := by
  induction buf generalizing shift out with
  | nil => rfl
  | cons b buf ih =>
    have hor : out ||| ((b.toNat % 128) <<< shift) = out + b.toNat % 128 * 2 ^ shift := by
      rw [Nat.shiftLeft_eq, Nat.or_comm, Nat.mul_comm, ← Nat.two_pow_add_eq_or_of_lt hout,
        Nat.add_comm]
    have hlt : out + b.toNat % 128 * 2 ^ shift < 2 ^ (shift + 7) := by
      have hmod : b.toNat % 128 ≤ 127 := by omega
      have hmul := Nat.mul_le_mul_right (2 ^ shift) hmod
      rw [Nat.pow_add]
      omega
    rw [varintDecode, Varint.decode, and_0x7F, hor]
    by_cases hb : b.toNat < 128
    · rw [if_pos ((and_0x80 b).mpr hb), if_pos hb, Option.map_some, Nat.mod_eq_of_lt hb]
    · rw [if_neg (fun h => hb ((and_0x80 b).mp h)), if_neg hb, ih hlt, Option.map_map]
      refine congrArg (fun f => Option.map f (Varint.decode buf)) (funext fun x => ?_)
      have hbyte := b.toNat_lt
      have hmod : b.toNat % 128 = b.toNat - 128 := by omega
      rw [Function.comp_apply, hmod, Nat.pow_add, Prod.mk.injEq]
      refine ⟨?_, rfl⟩
      rw [Nat.add_mul, Nat.add_assoc, Nat.mul_comm (2 ^ shift), Nat.mul_left_comm, Nat.mul_assoc]

theorem varintDecode_start (buf : Bytes) : varintDecode 0 0 buf = Varint.decode buf := by
  rw [varintDecode_eq buf Nat.one_pos]
  simp

def crcBit (c : UInt32) : UInt32 := if c &&& 1 = 1 then (c >>> 1) ^^^ 0xEDB88320 else c >>> 1

def crcByte (c : UInt32) (b : UInt8) : UInt32 := Nat.repeat crcBit 8 (c ^^^ b.toUInt32)

def crc32 (data : Bytes) : UInt32 := data.foldl crcByte 0xFFFFFFFF ^^^ 0xFFFFFFFF

def toBytesBig (c : UInt32) : Bytes :=
  [(c >>> 24).toUInt8, (c >>> 16).toUInt8, (c >>> 8).toUInt8, c.toUInt8]

def fromBytesBig (data : Bytes) : ℕ := data.foldl (fun n b => n * 256 + b.toNat) 0

def encodeUtf8 (s : Str) : Bytes := s.flatMap String.utf8EncodeChar

def decodeUtf8 (data : Bytes) : Option Str := (data.toByteArray.utf8Decode?).map Array.toList

def bodyOf (r : Record) : Bytes :=
  varintEncode (encodeUtf8 r.1).length ++ encodeUtf8 r.1 ++ r.2

def checkedOf (body : Bytes) : Bytes := magic ++ [ver] ++ varintEncode body.length ++ body

def frameOf (r : Record) : Bytes :=
  checkedOf (bodyOf r) ++ toBytesBig (crc32 (checkedOf (bodyOf r)))

theorem fromBytesBig_toBytesBig (c : UInt32) : fromBytesBig (toBytesBig c) = c.toNat := by
  simp only [fromBytesBig, toBytesBig, List.foldl_cons, List.foldl_nil, UInt32.toNat_toUInt8,
    UInt32.toNat_shiftRight, Nat.shiftRight_eq_div_pow]
  have hc := c.toNat_lt
  simp
  omega

theorem decodeUtf8_encodeUtf8 (s : Str) : decodeUtf8 (encodeUtf8 s) = some s := by
  have hencode : (encodeUtf8 s).toByteArray = s.utf8Encode := rfl
  rw [decodeUtf8, hencode, List.utf8Decode?_utf8Encode, Option.map_some]

section reading

inductive ReadError where
  | indexError
  | unicodeDecodeError
deriving DecidableEq

def readBody (body : Bytes) : Except ReadError Record :=
  match varintDecode 0 0 body with
  | none => .error .indexError
  | some (etLen, q) =>
    match decodeUtf8 (q.take etLen) with
    | none => .error .unicodeDecodeError
    | some et => .ok (et, q.drop etLen)

def readFrame (data : Bytes) : Except ReadError (Option (Record × Bytes)) :=
  if data.length < 9 then .ok none
  else if data.take 4 ≠ magic then .ok none
  else
    match varintDecode 0 0 (data.drop 5) with
    | none => .error .indexError
    | some (blen, rest) =>
      if rest.length < blen + 4 then .ok none
      else
        let frame := data.take (data.length - rest.length + blen)
        if (crc32 frame).toNat ≠ fromBytesBig ((rest.drop blen).take 4) then .ok none
        else (readBody (rest.take blen)).map (fun r => some (r, rest.drop (blen + 4)))

def IsFrame (f body : Bytes) : Prop :=
  ∃ v len sum, f = magic ++ v :: (len ++ (body ++ sum)) ∧
    varintDecode 0 0 len = some (body.length, []) ∧ sum.length = 4 ∧
    fromBytesBig sum = (crc32 (magic ++ v :: (len ++ body))).toNat

def Ends (data : Bytes) : Prop :=
  data.length < 9 ∨ data.take 4 ≠ magic ∨ (varintDecode 0 0 (data.drop 5)).isSome = true

instance (data : Bytes) : Decidable (Ends data) :=
  inferInstanceAs (Decidable (_ ∨ _ ∨ _))

variable {data f body rest len : Bytes} {v : UInt8} {n : ℕ}

theorem decode_len (h : varintDecode 0 0 len = some (n, [])) (more : Bytes) :
    varintDecode 0 0 (len ++ more) = some (n, more) := by
  rw [varintDecode_start] at h ⊢
  exact Varint.decode_append h more

theorem take_header (v : UInt8) (len rest : Bytes) (n : ℕ) :
    (magic ++ v :: (len ++ rest)).take ((magic ++ v :: (len ++ rest)).length - rest.length + n) =
      magic ++ v :: (len ++ rest.take n) := by
  have hassoc (more : Bytes) : magic ++ v :: (len ++ more) = (magic ++ v :: len) ++ more := by simp
  rw [hassoc, hassoc, List.length_append, Nat.add_sub_cancel, List.take_length_add_append]

theorem readFrame_header (h : varintDecode 0 0 len = some (n, [])) (hlen : len ≠ [])
    (hrest : n + 4 ≤ rest.length) : readFrame (magic ++ v :: (len ++ rest)) =
      if (crc32 (magic ++ v :: (len ++ rest.take n))).toNat ≠ fromBytesBig ((rest.drop n).take 4)
      then .ok none
      else (readBody (rest.take n)).map (fun r => some (r, rest.drop (n + 4))) := by
  have hpos := List.length_pos_of_ne_nil hlen
  have hlong : ¬(magic ++ v :: (len ++ rest)).length < 9 := by
    simp only [magic, List.length_append, List.length_cons, List.length_nil]
    omega
  have hdrop : (magic ++ v :: (len ++ rest)).drop 5 = len ++ rest := rfl
  have hmagic : (magic ++ v :: (len ++ rest)).take 4 = magic := rfl
  rw [readFrame, if_neg hlong, hmagic, if_neg (not_not.mpr rfl), hdrop, decode_len h]
  dsimp only
  rw [if_neg hrest.not_gt, take_header]

theorem readFrame_frame (hf : IsFrame f body) (rest : Bytes) :
    readFrame (f ++ rest) = (readBody body).map (fun r => some (r, rest)) := by
  obtain ⟨v, len, sum, rfl, hlen, hsum, hcrc⟩ := hf
  have hne : len ≠ [] := by
    rintro rfl
    cases hlen
  have hassoc : magic ++ v :: (len ++ (body ++ sum)) ++ rest =
      magic ++ v :: (len ++ (body ++ (sum ++ rest))) := by
    simp
  have htake : (body ++ (sum ++ rest)).take body.length = body := List.take_left' rfl
  have hdrop : (body ++ (sum ++ rest)).drop body.length = sum ++ rest := List.drop_left' rfl
  have hrest : (body ++ (sum ++ rest)).drop (body.length + 4) = rest := by
    rw [← List.drop_drop, hdrop, List.drop_left' hsum]
  rw [hassoc, readFrame_header hlen hne (by simp [hsum]), htake, hdrop, List.take_left' hsum, hcrc,
    if_neg (not_not.mpr rfl), hrest]

theorem delimited_isFrame : Framing.Delimited IsFrame := by
  refine ⟨?_, ?_⟩
  · rintro f b ⟨v, len, sum, rfl, -⟩
    exact List.cons_ne_nil _ _
  · rintro f f' b b' r r' ⟨v, len, sum, rfl, hlen, hsum, -⟩ ⟨v', len', sum', rfl, hlen', hsum', -⟩ h
    simp only [List.append_assoc, List.cons_append, List.append_cancel_left_eq,
      List.cons.injEq] at h
    obtain ⟨rfl, h⟩ := h
    have hdecode := congrArg (varintDecode 0 0) h
    rw [decode_len hlen, decode_len hlen', Option.some.injEq, Prod.mk.injEq] at hdecode
    obtain ⟨hsize, hrest⟩ := hdecode
    obtain ⟨rfl, htail⟩ := List.append_inj hrest hsize
    obtain ⟨rfl, rfl⟩ := List.append_inj htail (hsum.trans hsum'.symm)
    obtain rfl := List.append_cancel_right h
    exact ⟨rfl, rfl⟩

theorem header_split (hlong : 9 ≤ data.length) (hmagic : data.take 4 = magic) :
    data = magic ++ data[4] :: data.drop 5 := by
  have hdrop : data.drop 4 = data[4] :: data.drop 5 := List.drop_eq_getElem_cons (by omega)
  rw [← hdrop, ← hmagic, List.take_append_drop]

theorem readFrame_ends (h : Framing.Unframed IsFrame data) (he : Ends data) :
    readFrame data = .ok none := by
  unfold readFrame
  split_ifs with hshort hmagic
  · rfl
  · rfl
  · have hread := (he.resolve_left hshort).resolve_left (not_not.mpr (not_not.mp hmagic))
    split
    · rename_i hnone
      rw [hnone] at hread
      cases hread
    · rename_i blen rest hdecode
      dsimp only
      split_ifs with hlen hcrc
      · rfl
      · rfl
      · exfalso
        rw [varintDecode_start] at hdecode
        obtain ⟨len, hsplit, -, hpiece⟩ := Varint.decode_split hdecode
        have hdata := header_split (Nat.not_lt.mp hshort) (not_not.mp hmagic)
        rw [hsplit] at hdata
        rw [hdata, take_header] at hcrc
        have hframe : IsFrame (magic ++ data[4] :: (len ++ (rest.take blen ++
            (rest.drop blen).take 4))) (rest.take blen) := by
          refine ⟨_, len, (rest.drop blen).take 4, rfl, ?_, ?_, (not_not.mp hcrc).symm⟩
          · have hwhole := hpiece []
            rw [List.append_nil] at hwhole
            rw [varintDecode_start, hwhole, List.length_take_of_le (by omega)]
          · rw [List.length_take_of_le]
            rw [List.length_drop]
            omega
        refine h _ _ (rest.drop (blen + 4)) hframe (hdata.trans ?_)
        have hrest : (rest.drop blen).take 4 ++ rest.drop (blen + 4) = rest.drop blen := by
          rw [← List.drop_drop, List.take_append_drop]
        simp only [List.append_assoc, List.cons_append, hrest, List.take_append_drop]

theorem readFrame_stuck (he : ¬Ends data) : readFrame data = .error .indexError := by
  rw [Ends, not_or, not_or, not_lt, not_not] at he
  obtain ⟨hlong, hmagic, hread⟩ := he
  rw [readFrame, if_neg hlong.not_gt, if_neg (not_not.mpr hmagic),
    Option.not_isSome_iff_eq_none.mp hread]

theorem frame_or_unframed (data : Bytes) :
    (∃ f body rest, IsFrame f body ∧ data = f ++ rest) ∨ Framing.Unframed IsFrame data := by
  by_cases h : ∃ f body rest, IsFrame f body ∧ data = f ++ rest
  · exact Or.inl h
  · exact Or.inr (fun f body rest hf hdata => h ⟨f, body, rest, hf, hdata⟩)

theorem readFrame_some {r : Record} (h : readFrame data = .ok (some (r, rest))) :
    ∃ f body, IsFrame f body ∧ data = f ++ rest ∧ readBody body = .ok r := by
  rcases frame_or_unframed data with ⟨f, body, rest', hf, rfl⟩ | hdata
  · rw [readFrame_frame hf] at h
    cases hbody : readBody body with
    | error e =>
      rw [hbody] at h
      cases h
    | ok r' =>
      rw [hbody] at h
      cases h
      exact ⟨f, body, hf, rfl, hbody⟩
  · by_cases he : Ends data
    · rw [readFrame_ends hdata he] at h
      cases h
    · rw [readFrame_stuck he] at h
      cases h

theorem readFrame_lt {r : Record} (h : readFrame data = .ok (some (r, rest))) :
    rest.length < data.length := by
  obtain ⟨f, body, hf, rfl, -⟩ := readFrame_some h
  have hpos := List.length_pos_of_ne_nil (delimited_isFrame.ne_nil f body hf)
  rw [List.length_append]
  omega

end reading

section scanning

def scanSegment (data : Bytes) : List Record × Option ReadError :=
  match _h : readFrame data with
  | .error e => ([], some e)
  | .ok none => ([], none)
  | .ok (some (r, rest)) =>
    let scanned := scanSegment rest
    (r :: scanned.1, scanned.2)
termination_by data.length
decreasing_by exact readFrame_lt _h

variable {data f body rest : Bytes}

theorem scanSegment_some {r : Record} (h : readFrame data = .ok (some (r, rest))) :
    scanSegment data = (r :: (scanSegment rest).1, (scanSegment rest).2) := by
  rw [scanSegment]
  split
  · rename_i he
    cases he.symm.trans h
  · rename_i he
    cases he.symm.trans h
  · rename_i he
    cases he.symm.trans h
    rfl

theorem scanSegment_none (h : readFrame data = .ok none) : scanSegment data = ([], none) := by
  rw [scanSegment]
  split
  · rename_i he
    cases he.symm.trans h
  · rfl
  · rename_i he
    cases he.symm.trans h

theorem scanSegment_error {e : ReadError} (h : readFrame data = .error e) :
    scanSegment data = ([], some e) := by
  rw [scanSegment]
  split
  · rename_i he
    cases he.symm.trans h
    rfl
  · rename_i he
    cases he.symm.trans h
  · rename_i he
    cases he.symm.trans h

def YieldsPrefix (data : Bytes) : Prop :=
  ∃ bodies rest records, Framing.Longest IsFrame data bodies rest ∧
    List.Forall₂ (fun body r => readBody body = .ok r) bodies records ∧
    scanSegment data = (records, none)

def Scannable (data : Bytes) : Prop :=
  ∃ bodies rest, Framing.Longest IsFrame data bodies rest ∧
    (∀ body ∈ bodies, ∃ r, readBody body = .ok r) ∧ Ends rest

theorem yieldsPrefix_frame (hf : IsFrame f body) : YieldsPrefix (f ++ rest) ↔
    (∃ r, readBody body = .ok r) ∧ YieldsPrefix rest := by
  have hframe := readFrame_frame hf rest
  constructor
  · rintro ⟨bodies, left, records, hlong, hread, hscan⟩
    obtain ⟨bodies', rfl, hlong'⟩ := hlong.of_cons delimited_isFrame hf
    cases hread with
    | cons hbody hread' =>
      rw [hbody] at hframe
      rw [scanSegment_some hframe, Prod.mk.injEq, List.cons.injEq] at hscan
      obtain ⟨⟨-, hrecords⟩, hend⟩ := hscan
      exact ⟨⟨_, hbody⟩, bodies', left, _, hlong', hread', Prod.ext hrecords hend⟩
  · rintro ⟨⟨r, hbody⟩, bodies, left, records, hlong, hread, hscan⟩
    rw [hbody] at hframe
    refine ⟨body :: bodies, left, r :: records, hlong.cons delimited_isFrame hf,
      .cons hbody hread, ?_⟩
    rw [scanSegment_some hframe, hscan]

theorem scannable_frame (hf : IsFrame f body) : Scannable (f ++ rest) ↔
    (∃ r, readBody body = .ok r) ∧ Scannable rest := by
  constructor
  · rintro ⟨bodies, left, hlong, hbodies, hends⟩
    obtain ⟨bodies', rfl, hlong'⟩ := hlong.of_cons delimited_isFrame hf
    obtain ⟨hbody, hbodies'⟩ := List.forall_mem_cons.mp hbodies
    exact ⟨hbody, bodies', left, hlong', hbodies', hends⟩
  · rintro ⟨hbody, bodies, left, hlong, hbodies, hends⟩
    exact ⟨body :: bodies, left, hlong.cons delimited_isFrame hf,
      List.forall_mem_cons.mpr ⟨hbody, hbodies⟩, hends⟩

theorem yieldsPrefix_unframed (h : Framing.Unframed IsFrame data) :
    YieldsPrefix data ↔ Ends data := by
  constructor
  · rintro ⟨bodies, rest, records, -, -, hscan⟩
    by_contra hstuck
    rw [scanSegment_error (readFrame_stuck hstuck)] at hscan
    cases hscan
  · intro hends
    exact ⟨[], data, [], Framing.longest_unframed h, .nil,
      scanSegment_none (readFrame_ends h hends)⟩

theorem scannable_unframed (h : Framing.Unframed IsFrame data) :
    Scannable data ↔ Ends data := by
  constructor
  · rintro ⟨bodies, rest, hlong, -, hends⟩
    obtain ⟨-, rfl⟩ := hlong.of_unframed h
    exact hends
  · intro hends
    exact ⟨[], data, Framing.longest_unframed h, fun body hbody => (by cases hbody), hends⟩

theorem yields_prefix_iff (data : Bytes) : YieldsPrefix data ↔ Scannable data := by
  induction hn : data.length using Nat.strongRecOn generalizing data with
  | ind n ih =>
    rcases frame_or_unframed data with ⟨f, body, rest, hf, rfl⟩ | hdata
    · have hlt : rest.length < n := by
        have hpos := List.length_pos_of_ne_nil (delimited_isFrame.ne_nil f body hf)
        rw [← hn, List.length_append]
        omega
      rw [yieldsPrefix_frame hf, scannable_frame hf, ih rest.length hlt rest rfl]
    · rw [yieldsPrefix_unframed hdata, scannable_unframed hdata]

def cutVarint : Bytes := magic ++ [ver, 0x80, 0x80, 0x80, 0x80]

theorem cut_varint_raises :
    scanSegment cutVarint = ([], some .indexError) ∧ ¬YieldsPrefix cutVarint := by
  have hscan : scanSegment cutVarint = ([], some .indexError) :=
    scanSegment_error (readFrame_stuck (by decide))
  refine ⟨hscan, ?_⟩
  rintro ⟨bodies, rest, records, -, -, hnone⟩
  rw [hscan] at hnone
  cases hnone

end scanning

end TraceMind.Storage
