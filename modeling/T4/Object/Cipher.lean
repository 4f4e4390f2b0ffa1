import T4.Wal.Reader

/-!
# Encrypted objects

`pkg/object/cipher.go`: `encryptStream` cuts an object into frames and seals each of them with
the object key, the header, the frame's index and its length as associated data;
`decryptReader` opens them one by one. A frame without plaintext is the last one.

The AEAD is a parameter, with what is assumed of an ideal one in `Aead.Ideal`. Left out is
the size check of `writeEncryptedFrame`: `io.ReadFull` never fills more than its buffer.
-/

namespace T4.Object

open Lib Bytes Text Wal List

def encMagic : Bytes := ascii "T4E1"

/-- The magic, the key ID and the nonce of the object. -/
def encHeaderLen : Nat := encMagic.length + 1 + 12

def encChunkSize : Nat := 64 * 1024

def encTagSize : Nat := 16

/-! ## Readers -/

/-- An `io.Reader`: what each `Read` finds, and the error behind it. -/
structure Reader where
  chunks : List Bytes
  ends : IoError := .eof

/-- What the `Read`s of `io.ReadFull` bring into a buffer of `n` bytes, and what they leave. -/
def fill (n : Nat) : List Bytes → Bytes × List Bytes
  | [] => ([], [])
  | chunk :: rest =>
    if n ≤ chunk.length then (chunk.take n, chunk.drop n :: rest)
    else (chunk ++ (fill (n - chunk.length) rest).1, (fill (n - chunk.length) rest).2)

/-- `io.ReadFull`. -/
def Reader.readFull (r : Reader) (n : Nat) : Bytes × Option IoError × Reader :=
  let (got, rest) := fill n r.chunks
  (got,
    if got.length = n then none
    else if got ≠ [] ∧ r.ends = .eof then some .unexpectedEOF
    else some r.ends,
    { r with chunks := rest })

theorem fill_eq (n : Nat) (chunks : List Bytes) :
    (fill n chunks).1 = chunks.flatten.take n ∧
      (fill n chunks).2.flatten = chunks.flatten.drop n := by
  induction chunks generalizing n with
  | nil => simp [fill]
  | cons chunk rest ih =>
    rw [fill, flatten_cons, take_append, drop_append]
    split
    · rename_i enough
      simp [Nat.sub_eq_zero_of_le enough]
    · rename_i short
      have all : chunk.length ≤ n := by omega
      rw [take_of_length_le all, drop_of_length_le all, (ih _).1, (ih _).2]
      exact ⟨rfl, rfl⟩

theorem Reader.of_readFull {r r' : Reader} {n : Nat} {got : Bytes}
    (read : r.readFull n = (got, none, r')) :
    r.chunks.flatten = got ++ r'.chunks.flatten ∧ got.length = n := by
  obtain ⟨front, back⟩ := fill_eq n r.chunks
  simp only [Reader.readFull, Prod.mk.injEq] at read
  obtain ⟨rfl, full, rfl⟩ := read
  refine ⟨by rw [front, back, take_append_drop], ?_⟩
  by_contra short
  rw [if_neg short] at full
  split at full <;> cases full

theorem Reader.readFull_append {r : Reader} {front rest : Bytes}
    (stream : r.chunks.flatten = front ++ rest) :
    ∃ r', r.readFull front.length = (front, none, r') ∧ r'.chunks.flatten = rest := by
  obtain ⟨got, left⟩ := fill_eq front.length r.chunks
  rw [stream, take_left] at got
  rw [stream, drop_left] at left
  exact ⟨⟨(fill front.length r.chunks).2, r.ends⟩, by simp [Reader.readFull, got], left⟩

/-! ## Sealing -/

/-- The arguments of `Seal`. -/
structure SealCall where
  nonce : Bytes
  aad : Bytes
  plain : Bytes
  deriving DecidableEq

/-- `cipher.AEAD`. -/
structure Aead where
  seals : SealCall → Bytes
  opens : (nonce aad sealed : Bytes) → Option Bytes
  length_seals : ∀ q, (seals q).length = q.plain.length + encTagSize

/-- Only what was sealed opens, and to its plaintext. -/
structure Aead.Ideal (aead : Aead) (calls : List SealCall) : Prop where
  genuine : ∀ q ∈ calls, aead.opens q.nonce q.aad (aead.seals q) = some q.plain
  only : ∀ {nonce aad sealed plain}, aead.opens nonce aad sealed = some plain →
    ∃ q ∈ calls, q.nonce = nonce ∧ q.aad = aad ∧ aead.seals q = sealed ∧ q.plain = plain

/-- The index is a `uint64`. -/
def chunkNonce (base : Bytes) (idx : Nat) : Bytes :=
  base.take 4 ++ bigEndian 8 (ofBigEndian (base.drop 4) ^^^ idx % 2 ^ 64)

def frameAAD (key header : Bytes) (idx : Nat) (final : Bool) (length : Bytes) : Bytes :=
  ascii "t4-object-encryption-v1" ++ [0] ++ key ++ header ++ bigEndian 8 idx ++
    [if final then 1 else 0] ++ length

structure Frame where
  idx : Nat
  final : Bool
  plain : Bytes

/-- An object: its key, its header and the nonce in the header. -/
structure Envelope where
  key : Bytes
  keyID : UInt8
  nonce : Bytes
  length_nonce : nonce.length = 12

namespace Envelope

variable (env : Envelope)

def header : Bytes := encMagic ++ env.keyID :: env.nonce

def sealCall (f : Frame) : SealCall where
  nonce := chunkNonce env.nonce f.idx
  aad := frameAAD env.key env.header f.idx f.final (bigEndian 4 f.plain.length)
  plain := f.plain

def writeEncryptedFrame (aead : Aead) (f : Frame) : Bytes :=
  bigEndian 4 f.plain.length ++ aead.seals (env.sealCall f)

end Envelope

/-- The loop of `encryptStream`: the frames from `idx` on, and an error of the reader. Every
turn but the last takes bytes from the reader, so their number is enough fuel. -/
def encryptLoop : Nat → Reader → Nat → List Frame × Option IoError
  | 0, _, _ => ([], none)
  | fuel + 1, r, idx =>
    let (plain, err, r) := r.readFull encChunkSize
    let (here, idx) : List Frame × Nat :=
      if plain = [] then ([], idx) else ([⟨idx, false, plain⟩], idx + 1)
    match err with
    | none => let (later, err) := encryptLoop fuel r idx; (here ++ later, err)
    | some .eof | some .unexpectedEOF => (here ++ [⟨idx, true, []⟩], none)
    | some err => (here, some err)

def encryptFrames (r : Reader) : List Frame × Option IoError :=
  encryptLoop (r.chunks.flatten.length + 1) r 0

/-- What `encryptStream` writes, and its error. -/
def encryptStream (env : Envelope) (aead : Aead) (r : Reader) : Bytes × Option IoError :=
  let (frames, err) := encryptFrames r
  (env.header ++ frames.flatMap (env.writeEncryptedFrame aead), err)

/-! ## Opening -/

inductive DecryptError
  /-- A plain `io.EOF`; the errors below that wrap one are not. -/
  | eof
  | header (err : IoError)
  | unsupported (magic : Bytes)
  | frameLength (err : IoError)
  | exceedsMax (plainLen : Nat)
  | frame (err : IoError)
  | authentication (idx : Nat)
  deriving DecidableEq

structure DecryptReader where
  inner : Reader
  key : Bytes
  header : Bytes
  idx : Nat := 0
  /-- What is left of the frame. -/
  buf : Bytes := []
  done : Bool := false

def newDecryptReader (key : Bytes) (rc : Reader) : Except DecryptError DecryptReader :=
  match rc.readFull encHeaderLen with
  | (_, some err, _) => .error (.header err)
  | (header, none, inner) =>
    if header.take 4 ≠ encMagic then .error (.unsupported (header.take 4))
    else .ok { inner, key, header }

namespace DecryptReader

variable (aead : Aead)

def nonce (d : DecryptReader) : Bytes := d.header.drop 5

def readNextFrame (d : DecryptReader) : Except DecryptError DecryptReader :=
  match d.inner.readFull 4 with
  | (_, some err, _) => .error (.frameLength err)
  | (lbuf, none, inner) =>
    let plainLen := ofBigEndian lbuf
    if plainLen > encChunkSize then .error (.exceedsMax plainLen)
    else
      let final : Bool := plainLen = 0
      match inner.readFull (plainLen + encTagSize) with
      | (_, some err, _) => .error (.frame err)
      | (cipherBuf, none, inner) =>
        match aead.opens (chunkNonce d.nonce d.idx)
          (frameAAD d.key d.header d.idx final lbuf) cipherBuf with
        | none => .error (.authentication (d.idx % 2 ^ 64))
        | some plain =>
          .ok { d with
            inner
            idx := d.idx + 1
            done := if final then true else d.done
            buf := if final then d.buf else plain }

/-- The loop of `Read`. Every frame takes bytes from the reader, so their number is enough
fuel. -/
def readLoop (n : Nat) : Nat → DecryptReader → Except DecryptError (Bytes × DecryptReader)
  | 0, d => .error (.frameLength d.inner.ends)
  | fuel + 1, d =>
    if d.buf ≠ [] then .ok (d.buf.take n, { d with buf := d.buf.drop n })
    else if d.done then .error .eof
    else
      match d.readNextFrame aead with
      | .error err => .error err
      | .ok d => readLoop n fuel d

def read (d : DecryptReader) (n : Nat) : Except DecryptError (Bytes × DecryptReader) :=
  d.readLoop aead n (d.inner.chunks.flatten.length + 2)

/-- `Read` with buffers of these sizes, up to the first error. -/
def readMany : List Nat → DecryptReader → Bytes × Option DecryptError
  | [], _ => ([], none)
  | n :: sizes, d =>
    match d.read aead n with
    | .error err => ([], some err)
    | .ok (got, d) => (got ++ (readMany sizes d).1, (readMany sizes d).2)

end DecryptReader

/-- Opening an object and reading it. -/
def decrypt (aead : Aead) (key : Bytes) (rc : Reader) (sizes : List Nat) :
    Bytes × Option DecryptError :=
  match newDecryptReader key rc with
  | .error err => ([], some err)
  | .ok d => d.readMany aead sizes

/-! ## The frames of an object -/

/-- Frames from `idx` on that hold this plaintext, all of them full but the one before the
last. -/
inductive Framed : Nat → Bytes → List Frame → Prop
  | last (idx : Nat) : Framed idx [] [⟨idx, true, []⟩]
  | cons {idx : Nat} {chunk rest : Bytes} {frames : List Frame} (some_ : chunk ≠ [])
      (fits : chunk.length ≤ encChunkSize) (full : rest ≠ [] → chunk.length = encChunkSize)
      (later : Framed (idx + 1) rest frames) :
      Framed idx (chunk ++ rest) (⟨idx, false, chunk⟩ :: frames)

theorem encryptLoop_framed {fuel : Nat} {r : Reader} (atEnd : r.ends = .eof)
    (enough : r.chunks.flatten.length < fuel) (idx : Nat) :
    ∃ frames, encryptLoop fuel r idx = (frames, none) ∧ Framed idx r.chunks.flatten frames := by
  induction fuel generalizing r idx with
  | zero => omega
  | succ fuel ih =>
    have pos : 0 < encChunkSize := by decide
    obtain ⟨got, left⟩ := fill_eq encChunkSize r.chunks
    simp only [encryptLoop, Reader.readFull, atEnd, and_true, got]
    by_cases long : encChunkSize ≤ r.chunks.flatten.length
    · have size : (r.chunks.flatten.take encChunkSize).length = encChunkSize :=
        length_take_of_le long
      have some_ : r.chunks.flatten.take encChunkSize ≠ [] := by
        intro none_
        rw [none_] at size
        exact absurd size pos.ne
      obtain ⟨frames, ran, framed⟩ := @ih ⟨(fill encChunkSize r.chunks).2, .eof⟩ rfl
        (by simp only [left, length_drop]; omega) (idx + 1)
      simp only [left] at framed
      refine ⟨_, by rw [if_pos size, if_neg some_]; simp only [ran]; rfl, ?_⟩
      have whole := Framed.cons some_ size.le (fun _ => size) framed
      rwa [take_append_drop] at whole
    · have short : ¬ (r.chunks.flatten.take encChunkSize).length = encChunkSize := by
        rw [length_take]
        omega
      rw [if_neg short, take_of_length_le (by omega)]
      by_cases empty : r.chunks.flatten = []
      · rw [empty]
        exact ⟨_, rfl, .last idx⟩
      · rw [if_neg empty, if_pos empty]
        have whole := Framed.cons empty (by omega) (nofun) (.last (idx + 1))
        rw [append_nil] at whole
        exact ⟨_, rfl, whole⟩

theorem encryptFrames_framed {r : Reader} (atEnd : r.ends = .eof) :
    ∃ frames, encryptFrames r = (frames, none) ∧ Framed 0 r.chunks.flatten frames :=
  encryptLoop_framed atEnd (Nat.lt_succ_self _) 0

namespace Framed

variable {idx : Nat} {plain : Bytes} {frames front later : List Frame} {f : Frame}

theorem flatMap_plain (framed : Framed idx plain frames) : frames.flatMap Frame.plain = plain := by
  induction framed with
  | last => rfl
  | cons _ _ _ _ ih => rw [flatMap_cons, ih]

theorem frame_at (framed : Framed idx plain (front ++ f :: later)) :
    f.idx = idx + front.length ∧ f.plain.length ≤ encChunkSize ∧
      f.final = decide (f.plain = []) ∧ (f.final = true ↔ later = []) := by
  induction front generalizing idx plain with
  | nil =>
    cases framed with
    | last => simp
    | cons some_ fits _ rest =>
      have more : later ≠ [] := by
        rintro rfl
        cases rest
      simp [some_, fits, more]
  | cons g front ih =>
    rw [cons_append] at framed
    cases hf : front ++ f :: later with
    | nil => simp at hf
    | cons _ _ =>
      rw [hf] at framed
      cases framed with
      | cons _ _ _ rest =>
        rw [← hf] at rest
        obtain ⟨place, others⟩ := ih rest
        exact ⟨by rw [place, length_cons]; omega, others⟩

/-- Full chunks make few frames. -/
theorem length_le {k : Nat} (framed : Framed idx plain frames)
    (le : plain.length ≤ k * encChunkSize) : frames.length ≤ k + 1 := by
  induction framed generalizing k with
  | last => simp
  | @cons idx chunk rest frames some_ _ full later ih =>
    rw [length_append] at le
    have pos := length_pos_iff.mpr some_
    obtain ⟨k, rfl⟩ : ∃ j, k = j + 1 := Nat.exists_eq_succ_of_ne_zero (by rintro rfl; omega)
    have fewer : frames.length ≤ k + 1 := by
      apply ih
      by_cases empty : rest = []
      · simp [empty]
      · have := full empty
        rw [Nat.succ_mul] at le
        omega
    rw [length_cons]
    omega

/-- The frame of the chunk at `k`. -/
theorem mem_chunk {k : Nat} (framed : Framed idx plain frames)
    (some_ : k * encChunkSize < plain.length) :
    ⟨idx + k, false, (plain.drop (k * encChunkSize)).take encChunkSize⟩ ∈ frames := by
  induction framed generalizing k with
  | last => simp at some_
  | @cons idx chunk rest frames _ fits full later ih =>
    rw [length_append] at some_
    cases k with
    | zero =>
      have first : (chunk ++ rest).take encChunkSize = chunk := by
        by_cases empty : rest = []
        · rw [empty, append_nil, take_of_length_le fits]
        · rw [take_left' (full empty)]
      simp [first]
    | succ k =>
      rw [Nat.succ_mul] at some_ ⊢
      have size := full (fun empty => by simp [empty] at some_; omega)
      have mem := ih (k := k) (by omega)
      rw [Nat.add_comm (k * _), ← drop_drop, drop_left' size, Nat.add_right_comm] at *
      exact mem_cons_of_mem _ mem

end Framed

theorem frameAAD_inj {key key' header header' length length' : Bytes} {idx idx' : Nat}
    {final final' : Bool} (headers : header.length = header'.length)
    (lengths : length.length = length'.length)
    (same : frameAAD key header idx final length = frameAAD key' header' idx' final' length') :
    key = key' ∧ header = header' ∧ bigEndian 8 idx = bigEndian 8 idx' ∧ final = final' ∧
      length = length' := by
  -- The fields behind the object key have fixed lengths, so they are cut off from the end.
  obtain ⟨same, sameLength⟩ := append_inj' same lengths
  obtain ⟨same, sameFinal⟩ := append_inj' same rfl
  obtain ⟨same, sameIdx⟩ := append_inj' same (by simp)
  obtain ⟨same, sameHeader⟩ := append_inj' same headers
  refine ⟨append_cancel_left same, sameHeader, sameIdx, ?_, sameLength⟩
  cases final <;> cases final' <;> first | rfl | cases sameFinal

/-! ## Reading -/

section Reading

variable {env : Envelope} {aead : Aead} {plain data given : Bytes} {frames front back : List Frame}
  {d d' : DecryptReader}

/-- The reader `d` of `data` has opened the frames of `front` and given out `given`. -/
structure Follows (env : Envelope) (aead : Aead) (data : Bytes) (front back : List Frame)
    (given : Bytes) (d : DecryptReader) : Prop where
  idx : d.idx = front.length
  header : d.header.length = encHeaderLen
  stream : data = d.header ++ front.flatMap (env.writeEncryptedFrame aead) ++
    d.inner.chunks.flatten
  own : front ≠ [] → d.key = env.key ∧ d.header = env.header
  plain : given ++ d.buf = front.flatMap Frame.plain
  done : d.done = true ↔ back = []

theorem Envelope.length_header (env : Envelope) : env.header.length = encHeaderLen := by
  simp [Envelope.header, encHeaderLen, env.length_nonce]

def Envelope.output (env : Envelope) (aead : Aead) (frames : List Frame) : Bytes :=
  env.header ++ frames.flatMap (env.writeEncryptedFrame aead)

theorem DecryptReader.readNextFrame_ne_eof : d.readNextFrame aead ≠ .error .eof := by
  fun_cases DecryptReader.readNextFrame aead d <;> nofun

/-- A frame that was sealed opens. -/
theorem DecryptReader.readNextFrame_sealed {f : Frame} {rest : Bytes}
    (fits : f.plain.length ≤ encChunkSize) (isFinal : f.final = decide (f.plain = []))
    (opened : aead.opens (chunkNonce d.nonce d.idx)
      (frameAAD d.key d.header d.idx f.final (bigEndian 4 f.plain.length))
      (aead.seals (env.sealCall f)) = some f.plain)
    (stream : d.inner.chunks.flatten = env.writeEncryptedFrame aead f ++ rest) :
    ∃ d', d.readNextFrame aead = .ok d' ∧ (f.final = false → d'.buf = f.plain) := by
  rw [Envelope.writeEncryptedFrame, append_assoc] at stream
  obtain ⟨inner, length, stream⟩ := Reader.readFull_append stream
  obtain ⟨inner', body, -⟩ := Reader.readFull_append stream
  have number : ofBigEndian (bigEndian 4 f.plain.length) = f.plain.length :=
    ofBigEndian_bigEndian_of_lt (lt_of_le_of_lt fits (by decide))
  have last : decide (f.plain.length = 0) = f.final := by simp [isFinal]
  rw [length_bigEndian] at length
  rw [aead.length_seals] at body
  rw [DecryptReader.readNextFrame, length]
  simp only [number, if_neg (not_lt.mpr fits), Envelope.sealCall] at body opened ⊢
  simp only [body, last, opened]
  exact ⟨_, rfl, fun notFinal => by simp [notFinal]⟩

variable (framed : Framed 0 plain (front ++ back)) (few : (front ++ back).length ≤ 2 ^ 64)
  (ideal : aead.Ideal ((front ++ back).map env.sealCall))

include framed few ideal

/-- A frame that opens is the next frame of the object, byte for byte. -/
theorem Follows.next (follows : Follows env aead data front back given d) (empty : d.buf = [])
    (unfinished : d.done = false) (read : d.readNextFrame aead = .ok d') :
    ∃ f later, back = f :: later ∧ d'.key = d.key ∧
      Follows env aead data (front ++ [f]) later given d' ∧ (d'.buf = [] → d'.done = true) := by
  revert read
  fun_cases DecryptReader.readNextFrame aead d <;> rintro ⟨⟩
  case case5 lbuf inner length plainLen final _ cipherBuf inner' body plain' opened =>
    obtain ⟨q, called, -, aad, sealed, rfl⟩ := ideal.only opened
    obtain ⟨f, isFrame, rfl⟩ := mem_map.mp called
    obtain ⟨stream, four⟩ := Reader.of_readFull length
    obtain ⟨stream', -⟩ := Reader.of_readFull body
    obtain ⟨key, header, idx, sameFinal, sameLength⟩ := frameAAD_inj
      (env.length_header.trans follows.header.symm) (by rw [length_bigEndian, four]) aad
    have more : back ≠ [] := fun none_ => by simp [follows.done.mpr none_] at unfinished
    obtain ⟨before, after, split⟩ := append_of_mem isFrame
    rw [split] at framed
    obtain ⟨place, -, isFinal, ends⟩ := framed.frame_at
    -- The index decides which frame it is, since it does not wrap around.
    have size : before.length = front.length := by
      have total := congrArg List.length split
      have some_ := length_pos_iff.mpr more
      rw [length_append, length_append, length_cons] at total
      rw [length_append] at few
      rw [place, Nat.zero_add, follows.idx] at idx
      exact bigEndian_injective (by omega) (by omega) idx
    obtain ⟨rfl, rfl⟩ := append_inj split size.symm
    have given_ := follows.plain
    rw [empty, append_nil] at given_
    refine ⟨f, after, rfl, rfl, ⟨?_, follows.header, ?_, ?_, ?_, ?_⟩, ?_⟩
    · simp [follows.idx]
    · rw [follows.stream, stream, stream', ← sameLength, ← sealed]
      simp [Envelope.writeEncryptedFrame]
    · exact fun _ => ⟨key.symm, header.symm⟩
    · rw [given_, flatMap_append, flatMap_singleton, ← sameFinal, isFinal]
      by_cases none_ : f.plain = []
      · simp [none_, empty]
      · simp [none_, Envelope.sealCall]
    · rw [← sameFinal, unfinished, ← ends]
      simp
    · rw [← sameFinal, isFinal]
      by_cases none_ : f.plain = []
      · simp [none_]
      · simp [none_, Envelope.sealCall]

omit few in
/-- The frames of the object itself open. -/
theorem Follows.genuine (follows : Follows env aead data front back given d) (more : back ≠ [])
    (key : d.key = env.key) (whole : env.output aead (front ++ back) <+: data) :
    ∃ d', d.readNextFrame aead = .ok d' := by
  obtain ⟨f, later, rfl⟩ := exists_cons_of_ne_nil more
  obtain ⟨place, fits, isFinal, -⟩ := framed.frame_at
  obtain ⟨rest, split⟩ := whole
  rw [follows.stream, Envelope.output, append_assoc, append_assoc] at split
  obtain ⟨header, split⟩ := append_inj split (env.length_header.trans follows.header.symm)
  rw [flatMap_append, append_assoc] at split
  have stream := (append_cancel_left split).symm
  rw [flatMap_cons, append_assoc] at stream
  have opened := ideal.genuine _ (mem_map.mpr ⟨f, by simp, rfl⟩)
  have nonce : d.nonce = env.nonce := by
    rw [DecryptReader.nonce, ← header]
    rfl
  refine (DecryptReader.readNextFrame_sealed fits isFinal ?_ stream).imp fun _ => And.left
  rw [nonce, key, ← header, follows.idx, ← Nat.zero_add front.length, ← place]
  exact opened

/-- What reading brings behind `given`: a prefix of the plaintext, the end exactly for the
object under its `own` key, and an error in the end. -/
structure Reads (plain data output : Bytes) (own : Prop) (given : Bytes) (sizes : List Nat)
    (result : Bytes × Option DecryptError) : Prop where
  within : given ++ result.1 <+: plain
  atEnd : result.2 = some .eof → given ++ result.1 = plain ∧ own ∧ output <+: data
  whole : own → output <+: data → result.2 = none ∨ result.2 = some .eof
  ends : (∀ n ∈ sizes, 0 < n) → plain.length < given.length + sizes.length → result.2 ≠ none

/-- What a `Read` may bring to a reader with this key that has given out `given`. -/
def ReadOutcome (env : Envelope) (aead : Aead) (data : Bytes) (frames : List Frame)
    (given key : Bytes) (n : Nat) : Except DecryptError (Bytes × DecryptReader) → Prop
  | .ok (got, d) => d.key = key ∧ (0 < n → got ≠ []) ∧
    ∃ front back, frames = front ++ back ∧ Follows env aead data front back (given ++ got) d
  | .error err =>
    (err = .eof → given = frames.flatMap Frame.plain ∧ key = env.key ∧
      env.output aead frames <+: data) ∧
    (key = env.key → env.output aead frames <+: data → err = .eof)

omit few ideal in
/-- A `Read` that finds something to give out, or the end of the object. -/
theorem Follows.served (follows : Follows env aead data front back given d)
    (ready : d.buf = [] → d.done = true) (n fuel : Nat) :
    ReadOutcome env aead data (front ++ back) given d.key n (d.readLoop aead n (fuel + 1)) := by
  rw [DecryptReader.readLoop]
  by_cases empty : d.buf = []
  · obtain rfl := follows.done.mp (ready empty)
    have some_ : front ≠ [] := by
      rintro rfl
      cases framed
    obtain ⟨key, header⟩ := follows.own some_
    have given_ := follows.plain
    rw [empty, append_nil] at given_
    simp only [empty, ne_eq, not_true_eq_false, if_false, ready empty, if_true]
    refine ⟨fun _ => ⟨by simpa using given_, key, ?_⟩, fun _ _ => rfl⟩
    rw [follows.stream, header, append_nil, Envelope.output]
    exact prefix_append _ _
  · rw [if_pos empty]
    refine ⟨rfl, fun pos => by simp [empty, pos.ne'], front, back, rfl,
      ⟨follows.idx, follows.header, follows.stream, follows.own, ?_, follows.done⟩⟩
    rw [append_assoc, take_append_drop, follows.plain]

theorem Follows.read (follows : Follows env aead data front back given d) (n : Nat) :
    ReadOutcome env aead data (front ++ back) given d.key n (d.read aead n) := by
  by_cases ready : d.buf = [] → d.done = true
  · exact follows.served framed ready n _
  · obtain ⟨empty, unfinished⟩ := Classical.not_imp.mp ready
    have more : back ≠ [] := fun none_ => unfinished (follows.done.mpr none_)
    rw [DecryptReader.read, DecryptReader.readLoop]
    simp only [empty, unfinished, ne_eq, not_true_eq_false, if_false, Bool.false_eq_true]
    split
    · rename_i err failed
      refine ⟨fun eof => absurd (eof ▸ failed) DecryptReader.readNextFrame_ne_eof,
        fun key whole => ?_⟩
      obtain ⟨d', opened⟩ := follows.genuine framed ideal more key whole
      cases failed.symm.trans opened
    · rename_i d' opened
      obtain ⟨f, later, rfl, key, follows, ready⟩ :=
        follows.next framed few ideal empty (by simpa using unfinished) opened
      rw [← key, append_cons]
      exact follows.served (by rwa [← append_cons]) ready n _

omit few ideal in
theorem Follows.within (follows : Follows env aead data front back given d) : given <+: plain := by
  rw [← framed.flatMap_plain, flatMap_append, ← follows.plain, append_assoc]
  exact prefix_append _ _

theorem Follows.readMany (follows : Follows env aead data front back given d) (sizes : List Nat) :
    Reads plain data (env.output aead (front ++ back)) (d.key = env.key) given sizes
      (d.readMany aead sizes) := by
  induction sizes generalizing d front back given with
  | nil =>
    have within := follows.within framed
    refine ⟨by simpa [DecryptReader.readMany] using within, nofun, fun _ _ => .inl rfl,
      fun _ long => ?_⟩
    have := within.length_le
    simp only [length_nil] at long
    omega
  | cons n sizes ih =>
    have outcome := follows.read framed few ideal n
    rw [DecryptReader.readMany]
    cases h : d.read aead n with
    | error err =>
      rw [h] at outcome
      obtain ⟨atEnd, whole⟩ := outcome
      rw [framed.flatMap_plain] at atEnd
      exact ⟨by simpa using follows.within framed, by simpa using atEnd,
        fun own all => .inr (congrArg some (whole own all)), nofun⟩
    | ok result =>
      obtain ⟨got, d'⟩ := result
      rw [h] at outcome
      obtain ⟨key, some_, front', back', same, follows⟩ := outcome
      rw [same] at framed few ideal ⊢
      obtain ⟨within, atEnd, whole, ends⟩ := ih framed few ideal follows
      rw [append_assoc] at within atEnd
      rw [key] at atEnd whole
      refine ⟨within, atEnd, whole, fun pos long => ends (fun n mem => pos n (by simp [mem])) ?_⟩
      have := length_pos_iff.mpr (some_ (pos n (by simp)))
      rw [length_append]
      simp only [length_cons] at long
      omega

end Reading

section Decrypt

variable (env : Envelope) (aead : Aead) {plain key : Bytes} {frames : List Frame} {rc : Reader}

theorem newDecryptReader_ok {d : DecryptReader} (some_ : frames ≠ [])
    (read : newDecryptReader key rc = .ok d) :
    d.key = key ∧ Follows env aead rc.chunks.flatten [] frames [] d := by
  revert read
  fun_cases newDecryptReader key rc <;> rintro ⟨⟩
  case case3 header inner length _ =>
    obtain ⟨stream, size⟩ := Reader.of_readFull length
    exact ⟨rfl, rfl, size, by simpa using stream, fun no => absurd rfl no,
      rfl, by simpa using some_⟩

theorem newDecryptReader_error {err : DecryptError} (frames : List Frame)
    (read : newDecryptReader key rc = .error err) :
    err ≠ .eof ∧ ¬ env.output aead frames <+: rc.chunks.flatten := by
  refine ⟨?_, fun whole => ?_⟩
  · revert read
    fun_cases newDecryptReader key rc <;> rintro ⟨⟩ <;> nofun
  · obtain ⟨rest, stream⟩ := whole
    rw [Envelope.output, append_assoc] at stream
    obtain ⟨inner, length, -⟩ := Reader.readFull_append stream.symm
    rw [env.length_header] at length
    simp [newDecryptReader, length, show env.header.take 4 = encMagic from rfl] at read

variable {env aead}

theorem decrypt_framed (key : Bytes) (rc : Reader) (framed : Framed 0 plain frames)
    (few : frames.length ≤ 2 ^ 64) (ideal : aead.Ideal (frames.map env.sealCall))
    (sizes : List Nat) :
    Reads plain rc.chunks.flatten (env.output aead frames) (key = env.key) [] sizes
      (decrypt aead key rc sizes) := by
  rw [decrypt]
  cases opened : newDecryptReader key rc with
  | error err =>
    obtain ⟨other, notWhole⟩ := newDecryptReader_error env aead frames opened
    constructor <;> simp [other, notWhole]
  | ok d =>
    have some_ : frames ≠ [] := by
      rintro rfl
      cases framed
    obtain ⟨rfl, follows⟩ := newDecryptReader_ok env aead some_ opened
    exact @Follows.readMany _ _ _ _ _ [] frames _ framed few ideal follows sizes

/-- Whatever is read instead of the object, and under whatever key: what is given out is a
prefix of the plaintext, and the end is reported for the object under its own key only. -/
theorem decrypt_encryptStream (env : Envelope) (aead : Aead) (r rc : Reader) (key : Bytes)
    (sizes : List Nat) (atEnd : r.ends = .eof)
    (bounded : r.chunks.flatten.length ≤ (2 ^ 64 - 1) * encChunkSize)
    (ideal : aead.Ideal ((encryptFrames r).1.map env.sealCall)) :
    ∃ output, encryptStream env aead r = (output, none) ∧
      (decrypt aead key rc sizes).1 <+: r.chunks.flatten ∧
      ((∀ n ∈ sizes, 0 < n) → r.chunks.flatten.length < sizes.length →
        (decrypt aead key rc sizes).2 ≠ none) ∧
      (rc.chunks.flatten = output → key = env.key →
        ((decrypt aead key rc sizes).2 = none ∨ (decrypt aead key rc sizes).2 = some .eof) ∧
        ((decrypt aead key rc sizes).2 = some .eof →
          (decrypt aead key rc sizes).1 = r.chunks.flatten)) ∧
      ((rc.chunks.flatten ≠ output ∧
          (rc.chunks.flatten <+: output ∨ rc.chunks.flatten.length = output.length) ∨
          rc.chunks.flatten = output ∧ key ≠ env.key) →
        (decrypt aead key rc sizes).2 ≠ some .eof) := by
  obtain ⟨frames, made, framed⟩ := encryptFrames_framed atEnd
  rw [made] at ideal
  obtain ⟨within, ended, whole, ends⟩ :=
    decrypt_framed key rc framed (framed.length_le bounded) ideal sizes
  refine ⟨_, by rw [encryptStream, made], within,
    fun pos long => ends pos (by simpa using long), fun same own => ?_, fun altered eof => ?_⟩
  · exact ⟨whole own (same ▸ prefix_refl _), fun eof => (ended eof).1⟩
  · obtain ⟨-, own, front⟩ := ended eof
    rcases altered with ⟨changed, shorter | long⟩ | ⟨-, other⟩
    · exact changed (shorter.eq_of_length_le front.length_le)
    · exact changed (front.eq_of_length long.symm).symm
    · exact other own

/-- An AEAD that opens what stands in a log. -/
def logged (calls : List SealCall) : Aead where
  seals q := q.plain ++ List.replicate encTagSize 0
  opens nonce aad sealed :=
    (calls.find? fun q => q.nonce = nonce ∧ q.aad = aad ∧
      q.plain ++ List.replicate encTagSize 0 = sealed).map SealCall.plain
  length_seals _ := by simp

theorem ideal_logged (calls : List SealCall) : (logged calls).Ideal calls where
  genuine q called := by
    let matching (q' : SealCall) : Bool := q'.nonce = q.nonce ∧ q'.aad = q.aad ∧
      q'.plain ++ List.replicate encTagSize 0 = q.plain ++ List.replicate encTagSize 0
    obtain ⟨q', found⟩ := Option.isSome_iff_exists.mp
      (find?_isSome.mpr ⟨q, called, show matching q = true by simp [matching]⟩)
    have same := find?_some found
    simp only [matching, decide_eq_true_eq] at same
    exact Option.map_eq_some_iff.mpr ⟨q', found, append_cancel_right same.2.2⟩
  only opened := by
    obtain ⟨q, found, plain⟩ := Option.map_eq_some_iff.mp opened
    have same := find?_some found
    simp only [decide_eq_true_eq] at same
    exact ⟨q, mem_of_find?_eq_some found, same.1, same.2.1, same.2.2, plain⟩

def someEnvelope : Envelope := ⟨ascii "a", 7, List.replicate 12 0, rfl⟩

theorem decrypt_encryptStream_three :
    let r : Reader := ⟨[[1], [2, 3]], .eof⟩
    let aead := logged ((encryptFrames r).1.map someEnvelope.sealCall)
    (decrypt aead someEnvelope.key ⟨[(encryptStream someEnvelope aead r).1], .eof⟩
      [2, 2, 2, 2]).1 = [1, 2, 3] := by
  intro r aead
  obtain ⟨output, made, -, ends, whole, -⟩ := decrypt_encryptStream someEnvelope aead r
    ⟨[(encryptStream someEnvelope aead r).1], .eof⟩ someEnvelope.key [2, 2, 2, 2] rfl
    (by decide) (ideal_logged _)
  obtain ⟨ended, exact_⟩ := whole (by simp [made]) rfl
  exact exact_ (ended.resolve_left (ends (by decide) (by decide)))

/-- The index of a frame wraps around: in an object of more than 2 ^ 64 chunks, one of the
later frames opens in the place of the first. -/
theorem first_frame_replaced : ∃ (env : Envelope) (aead : Aead) (r rc : Reader),
    r.ends = .eof ∧ aead.Ideal ((encryptFrames r).1.map env.sealCall) ∧
      rc.chunks.flatten.length = (encryptStream env aead r).1.length ∧
      ¬ (decrypt aead env.key rc [1]).1 <+: r.chunks.flatten := by
  obtain ⟨k, wraps⟩ : ∃ k : Nat, k = 2 ^ 64 := ⟨_, rfl⟩
  obtain ⟨zeros, some_⟩ : ∃ n, k * encChunkSize = n + 1 :=
    Nat.exists_eq_succ_of_ne_zero (Nat.mul_ne_zero (by omega) (by decide))
  let r : Reader := ⟨[List.replicate (k * encChunkSize) 0 ++ [1]], .eof⟩
  obtain ⟨frames, made, framed⟩ := encryptFrames_framed (r := r) rfl
  let f : Frame := ⟨k, false, [1]⟩
  have mem : f ∈ frames := by
    have mem := framed.mem_chunk (k := k) (by simp [r])
    simpa [r, drop_left', f, encChunkSize] using mem
  let env := someEnvelope
  let aead := logged (frames.map env.sealCall)
  have ideal : aead.Ideal (frames.map env.sealCall) := ideal_logged _
  let stream := frames.flatMap (env.writeEncryptedFrame aead)
  let rc : Reader := ⟨[env.header ++ (env.writeEncryptedFrame aead f ++ stream.drop 21)], .eof⟩
  refine ⟨env, aead, r, rc, rfl, by rwa [made], ?_, ?_⟩
  · have size : (env.writeEncryptedFrame aead f).length = 21 := by
      simp [Envelope.writeEncryptedFrame, aead.length_seals, Envelope.sealCall, f, encTagSize]
    have long : 21 ≤ stream.length := by
      obtain ⟨before, after, split⟩ := append_of_mem mem
      simp only [stream, split, flatMap_append, flatMap_cons, length_append, size]
      omega
    have total : (encryptStream env aead r).1 = env.header ++ stream := by rw [encryptStream, made]
    simp only [rc, total, flatten_singleton, length_append, length_drop, size]
    omega
  · obtain ⟨inner, length, left⟩ := Reader.readFull_append (r := rc) (append_nil _)
    let d : DecryptReader := { inner, key := env.key, header := env.header }
    have opened : newDecryptReader env.key rc = .ok d := by
      rw [env.length_header] at length
      simp [newDecryptReader, length, d, show env.header.take 4 = encMagic from rfl]
    have genuine := ideal.genuine _ (mem_map_of_mem mem)
    have nonce : chunkNonce env.nonce k = chunkNonce env.nonce 0 := by simp [chunkNonce, wraps]
    have idx : bigEndian 8 k = bigEndian 8 0 := by
      rw [← bigEndian_mod 8 8 k le_rfl, wraps]
      rfl
    simp only [Envelope.sealCall, f, nonce, frameAAD, idx] at genuine
    obtain ⟨d', next, buf⟩ := DecryptReader.readNextFrame_sealed (d := d) (f := f)
      (by simp [f, encChunkSize]) rfl genuine left
    have got : (decrypt aead env.key rc [1]).1 = [1] := by
      simp [decrypt, opened, DecryptReader.readMany, DecryptReader.read, DecryptReader.readLoop,
        next, buf, f, d]
    rw [got]
    simp [r, some_, replicate_succ]

end Decrypt

end T4.Object
