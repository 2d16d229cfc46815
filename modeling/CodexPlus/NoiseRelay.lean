/-
CodexPlus/NoiseRelay.lean

Messages over a Noise relay: exec-server/src/noise_relay/message_framing.rs and the
receive loop of executor_stream.rs.

A message is written with its length before it, the bytes are cut into records, and
every record is encrypted under its number and delivered in any order.  The receiver
puts the records back in order, decrypts them one by one and takes the messages out
of their bytes.
-/
import CodexPlus.OrderedCiphertext

namespace CodexPlus

open List NoiseRelay.OrderedCiphertextFrames

namespace NoiseRelay

open Reorder

abbrev Bytes := List UInt8

def lengthPrefixBytes : ℕ := 4
def maxNoiseJsonrpcMessageLen : ℕ := 64 * 1024 * 1024
def noiseRecordPlaintextLen : ℕ := 60 * 1024

/-! ### Framing -/

/-- `u32::to_be_bytes` -/
def toBeBytes (n : ℕ) : Bytes :=
  [UInt8.ofNat (n / 2 ^ 24), UInt8.ofNat (n / 2 ^ 16), UInt8.ofNat (n / 2 ^ 8), UInt8.ofNat n]

/-- `u32::from_be_bytes` -/
def fromBeBytes (a b c d : UInt8) : ℕ :=
  ((a.toNat * 256 + b.toNat) * 256 + c.toNat) * 256 + d.toNat

def messageLengthPrefix (messageLen : ℕ) : Except ExecServerError Bytes :=
  if messageLen = 0 ∨ maxNoiseJsonrpcMessageLen < messageLen then
    .error (.protocol "Noise relay JSON-RPC message exceeds maximum length")
  else .ok (toBeBytes messageLen)

def frameMessage (message : Bytes) : Except ExecServerError Bytes :=
  (messageLengthPrefix message.length).map (· ++ message)

structure MessageDecoder where
  buffered : Bytes
  deriving DecidableEq, Repr

/-- The loop of `MessageDecoder::push`, which takes a message off the buffer each time. -/
def takeMessages : ℕ → Bytes → List Bytes → Except ExecServerError (List Bytes) × Bytes
  | fuel + 1, a :: b :: c :: d :: rest, messages =>
    let messageLen := fromBeBytes a b c d
    if messageLen = 0 ∨ maxNoiseJsonrpcMessageLen < messageLen then
      (.error (.protocol "Noise relay JSON-RPC message has invalid length"),
        a :: b :: c :: d :: rest)
    else if (a :: b :: c :: d :: rest).length < lengthPrefixBytes + messageLen then
      (.ok messages, a :: b :: c :: d :: rest)
    else takeMessages fuel (rest.drop messageLen) (messages ++ [rest.take messageLen])
  | _, buffered, messages => (.ok messages, buffered)

def MessageDecoder.push (decoder : MessageDecoder) (plaintextRecord : Bytes) :
    Except ExecServerError (List Bytes) × MessageDecoder :=
  if noiseRecordPlaintextLen < plaintextRecord.length then
    (.error (.protocol "Noise relay plaintext record exceeds maximum length"), decoder)
  else
    let buffered := decoder.buffered ++ plaintextRecord
    match takeMessages buffered.length buffered [] with
    | (.error error, rest) => (.error error, ⟨rest⟩)
    | (.ok messages, rest) =>
      if lengthPrefixBytes + maxNoiseJsonrpcMessageLen < rest.length then
        (.error (.protocol "Noise relay JSON-RPC reassembly buffer exceeds maximum length"), ⟨rest⟩)
      else (.ok messages, ⟨rest⟩)

/-! ### Receiving -/

/-- The read half of a stream.  The transport decrypts with the number of the record it is at. -/
structure Receiver where
  inboundCiphertexts : OrderedCiphertextFrames Bytes
  nonce : ℕ
  inboundDecoder : MessageDecoder
  deriving DecidableEq, Repr

def Receiver.start : Receiver := ⟨.start, 0, ⟨[]⟩⟩

section Receive

variable (decrypt : ℕ → Bytes → Option Bytes)

/-- The loop of `receive_data`: the messages handed on, whether it came to its end, and the state. -/
def openAll : List Bytes → Receiver → List Bytes × Except ExecServerError Unit × Receiver
  | [], receiver => ([], .ok (), receiver)
  | ciphertext :: rest, receiver =>
    match decrypt receiver.nonce ciphertext with
    | none => ([], .error (.protocol "Noise relay decryption failed"), receiver)
    | some plaintext =>
      match receiver.inboundDecoder.push plaintext with
      | (.error error, decoder) =>
        ([], .error error, ⟨receiver.inboundCiphertexts, receiver.nonce + 1, decoder⟩)
      | (.ok messages, decoder) =>
        let (more, status, receiver) :=
          openAll rest ⟨receiver.inboundCiphertexts, receiver.nonce + 1, decoder⟩
        (messages ++ more, status, receiver)

def receiveData (receiver : Receiver) (seq : ℕ) (payload : Bytes) :
    List Bytes × Except ExecServerError Unit × Receiver :=
  match receiver.inboundCiphertexts.push List.length seq payload with
  | (.error error, frames) => ([], .error error, { receiver with inboundCiphertexts := frames })
  | (.ok ready, frames) => openAll decrypt ready { receiver with inboundCiphertexts := frames }

/-- A stream reads records until one fails. -/
def receiveAll : Receiver → List (ℕ × Bytes) → List Bytes × Except ExecServerError Unit × Receiver
  | receiver, [] => ([], .ok (), receiver)
  | receiver, (seq, payload) :: rest =>
    match receiveData decrypt receiver seq payload with
    | (messages, .error error, receiver) => (messages, .error error, receiver)
    | (messages, .ok (), receiver) =>
      let (more, status, receiver) := receiveAll receiver rest
      (messages ++ more, status, receiver)

end Receive

/-! ### Taking messages out of their bytes -/

/-- The bytes of messages, as they are framed one after the other. -/
def framed (messages : List Bytes) : Bytes :=
  messages.flatMap fun message => (frameMessage message).toOption.getD []

def Sendable (message : Bytes) : Prop :=
  0 < message.length ∧ message.length ≤ maxNoiseJsonrpcMessageLen

theorem fromBeBytes_toBeBytes {n : ℕ} (h : n < 2 ^ 32) :
    fromBeBytes (UInt8.ofNat (n / 2 ^ 24)) (UInt8.ofNat (n / 2 ^ 16)) (UInt8.ofNat (n / 2 ^ 8))
      (UInt8.ofNat n) = n := by
  simp only [fromBeBytes, UInt8.toNat_ofNat']
  omega

variable {message : Bytes}

theorem Sendable.lt (h : Sendable message) : message.length < 2 ^ 32 :=
  lt_of_le_of_lt h.2 (by decide)

theorem frameMessage_ok (h : Sendable message) :
    frameMessage message = .ok (toBeBytes message.length ++ message) := by
  have hlen : ¬ (message.length = 0 ∨ maxNoiseJsonrpcMessageLen < message.length) := by
    have := h.1
    have := h.2
    omega
  rw [frameMessage, messageLengthPrefix, if_neg hlen]
  rfl

theorem framed_cons (h : Sendable message) (rest : List Bytes) :
    framed (message :: rest) = toBeBytes message.length ++ (message ++ framed rest) := by
  rw [framed, flatMap_cons, frameMessage_ok h]
  rfl

/-- The buffer holds less than the next message. -/
def Short (buffered : Bytes) (remaining : List Bytes) : Prop :=
  ∀ message ∈ remaining.head?, buffered.length < lengthPrefixBytes + message.length

theorem takeMessages_of_lt {fuel : ℕ} {buffered : Bytes} (h : buffered.length < lengthPrefixBytes)
    (messages : List Bytes) : takeMessages fuel buffered messages = (.ok messages, buffered) := by
  match fuel, buffered with
  | 0, _ => rfl
  | _ + 1, [] => rfl
  | _ + 1, [_] => rfl
  | _ + 1, [_, _] => rfl
  | _ + 1, [_, _, _] => rfl
  | _ + 1, _ :: _ :: _ :: _ :: rest => exact absurd h (by simp [lengthPrefixBytes])

/-- The loop at the length of a message. -/
theorem takeMessages_at (h : Sendable message) (fuel : ℕ) (tail : Bytes) (messages : List Bytes) :
    takeMessages (fuel + 1) (toBeBytes message.length ++ tail) messages =
      if tail.length < message.length then
        (.ok messages, toBeBytes message.length ++ tail)
      else takeMessages fuel (tail.drop message.length) (messages ++ [tail.take message.length]) := by
  have hlen : ¬ (message.length = 0 ∨ maxNoiseJsonrpcMessageLen < message.length) := by
    have := h.1
    have := h.2
    omega
  have hlength : (toBeBytes message.length ++ tail).length < lengthPrefixBytes + message.length ↔
      tail.length < message.length := by
    rw [length_append]
    exact Nat.add_lt_add_iff_left
  show (if fromBeBytes _ _ _ _ = 0 ∨ _ then _ else _) = _
  rw [fromBeBytes_toBeBytes h.lt, if_neg hlen]
  exact if_congr hlength rfl rfl

variable {rest : Bytes}

theorem exists_of_append_eq {l front back : Bytes} (h : l ++ rest = front ++ back)
    (hle : front.length ≤ l.length) : ∃ more, l = front ++ more ∧ more ++ rest = back := by
  have hfront : front <+: l ++ rest := ⟨back, h.symm⟩
  obtain ⟨more, rfl⟩ := prefix_of_prefix_length_le hfront (prefix_append l rest) hle
  rw [append_assoc] at h
  exact ⟨more, rfl, append_cancel_left h⟩

variable {remaining : List Bytes}

/-- **The loop of the decoder takes out all the messages that are there as a whole.** -/
theorem takeMessages_spec (fuel : ℕ) {buffered : Bytes}
    (hsend : ∀ message ∈ remaining, Sendable message) (hfuel : buffered.length ≤ fuel)
    (h : buffered ++ rest = framed remaining) (messages : List Bytes) :
    ∃ taken left buffered', remaining = taken ++ left ∧
      takeMessages fuel buffered messages = (.ok (messages ++ taken), buffered') ∧
      buffered' ++ rest = framed left ∧ Short buffered' left := by
  induction fuel generalizing buffered remaining messages with
  | zero =>
    obtain rfl : buffered = [] := eq_nil_of_length_eq_zero (by omega)
    refine ⟨[], remaining, [], rfl, ?_, h, fun message _ => Nat.add_pos_left (by decide) _⟩
    rw [takeMessages_of_lt (by decide), append_nil]
  | succ fuel ih =>
    by_cases hshort : buffered.length < lengthPrefixBytes
    · -- less than a length stays in the buffer
      refine ⟨[], remaining, buffered, rfl, ?_, h,
        fun message _ => lt_of_lt_of_le hshort (Nat.le_add_right _ _)⟩
      rw [takeMessages_of_lt hshort, append_nil]
    · rcases remaining with - | ⟨message, remaining⟩
      · have hnil : buffered = [] := (append_eq_nil_iff.mp h).1
        exact absurd (by rw [hnil]; decide) hshort
      · have hmessage := hsend message mem_cons_self
        rw [framed_cons hmessage] at h
        obtain ⟨tail, rfl, htail⟩ := exists_of_append_eq h (Nat.le_of_not_lt hshort)
        rw [takeMessages_at hmessage]
        by_cases hpart : tail.length < message.length
        · -- the message is not there as a whole
          refine ⟨[], message :: remaining, toBeBytes message.length ++ tail, rfl, ?_, ?_, ?_⟩
          · rw [if_pos hpart, append_nil]
          · rw [framed_cons hmessage, append_assoc, htail]
          · rintro _ ⟨⟩
            rw [length_append]
            exact Nat.add_lt_add_left hpart _
        · obtain ⟨more, rfl, hmore⟩ := exists_of_append_eq htail (Nat.le_of_not_lt hpart)
          have hfuel' : more.length ≤ fuel := by
            simp only [length_append] at hfuel
            have := hmessage.1
            omega
          obtain ⟨taken, left, buffered', hremaining, hloop, hleft, hshort'⟩ :=
            ih (fun m hm => hsend m (mem_cons_of_mem _ hm)) hfuel' hmore (messages ++ [message])
          refine ⟨message :: taken, left, buffered', by rw [hremaining]; rfl, ?_, hleft, hshort'⟩
          rw [if_neg hpart, drop_left, take_left, hloop, append_assoc]
          rfl

/-- **A record adds to the messages taken out**, and no error comes of it. -/
theorem MessageDecoder.push_spec {decoder : MessageDecoder} {record : Bytes}
    (hsend : ∀ message ∈ remaining, Sendable message)
    (hrecord : record.length ≤ noiseRecordPlaintextLen)
    (h : decoder.buffered ++ (record ++ rest) = framed remaining) :
    ∃ taken left decoder', remaining = taken ++ left ∧
      decoder.push record = (.ok taken, decoder') ∧ decoder'.buffered ++ rest = framed left ∧
      Short decoder'.buffered left := by
  rw [← append_assoc] at h
  obtain ⟨taken, left, buffered', hremaining, hloop, hleft, hshort⟩ :=
    takeMessages_spec (decoder.buffered ++ record).length hsend le_rfl h []
  refine ⟨taken, left, ⟨buffered'⟩, hremaining, ?_, hleft, hshort⟩
  have hbound : ¬ lengthPrefixBytes + maxNoiseJsonrpcMessageLen < buffered'.length := by
    rcases left with - | ⟨message, left⟩
    · have hnil : buffered' = [] := (append_eq_nil_iff.mp hleft).1
      rw [hnil]
      exact Nat.not_lt_zero _
    · have hlt := hshort message rfl
      have hle := (hsend message (by rw [hremaining]; simp)).2
      omega
  simp only [MessageDecoder.push, if_neg (Nat.not_lt.mpr hrecord), hloop, nil_append, if_neg hbound]

/-! ### Receiving in any order -/

/-- Records that the frames of sendable messages are cut into. -/
structure Cut (messages records : List Bytes) : Prop where
  sendable : ∀ message ∈ messages, Sendable message
  bytes : records.flatten = framed messages
  small : ∀ record ∈ records, record.length ≤ noiseRecordPlaintextLen

/-- The numbers of a delivery stay in the window of the receiver: none is too far ahead of the one
it expects, and what it has to keep is not too much. -/
def InWindow (size : ℕ → ℕ) (delivery : List ℕ) : Prop :=
  ∀ before seq after, delivery = before ++ seq :: after →
    seq ≤ expected before + maxReorderDistance ∧
      ∑ n ∈ ahead (before ++ [seq]), size n ≤ maxPendingBytes

section Transport

variable {encrypt : ℕ → Bytes → Bytes} {decrypt : ℕ → Bytes → Option Bytes}
  {messages records remaining : List Bytes} {receiver : Receiver} {delivered : List ℕ}

/-- The payload that carries a record. -/
def payload (encrypt : ℕ → Bytes → Bytes) (records : List Bytes) (seq : ℕ) : Bytes :=
  encrypt seq (records.getD seq [])

/-- The messages `remaining` are in the records that were not opened, but for what is buffered. -/
structure Reads (records remaining : List Bytes) (receiver : Receiver) : Prop where
  bytes : receiver.inboundDecoder.buffered ++ (records.drop receiver.nonce).flatten =
    framed remaining
  short : Short receiver.inboundDecoder.buffered remaining

section Ideal

variable (hideal : ∀ n record, decrypt n (encrypt n record) = some record)
  (hsmall : ∀ record ∈ records, record.length ≤ noiseRecordPlaintextLen)

include hideal hsmall

/-- Opening the next records takes out the next messages. -/
theorem openAll_spec (count : ℕ)
    (hcount : receiver.nonce + count ≤ records.length)
    (hsend : ∀ message ∈ remaining, Sendable message) (h : Reads records remaining receiver) :
    ∃ taken left receiver', remaining = taken ++ left ∧
      openAll decrypt ((List.range' receiver.nonce count).map (payload encrypt records)) receiver =
        (taken, .ok (), receiver') ∧
      receiver'.inboundCiphertexts = receiver.inboundCiphertexts ∧
      receiver'.nonce = receiver.nonce + count ∧ Reads records left receiver' := by
  induction count generalizing receiver remaining with
  | zero => exact ⟨[], remaining, receiver, rfl, rfl, rfl, rfl, h⟩
  | succ count ih =>
    have hnonce : receiver.nonce < records.length := by omega
    have hrecord : records.getD receiver.nonce [] = records[receiver.nonce] := by
      simp [hnonce]
    have hbytes := h.bytes
    rw [drop_eq_getElem_cons hnonce] at hbytes
    obtain ⟨taken, left, decoder, hremaining, hpush, hleft, hshort⟩ :=
      MessageDecoder.push_spec hsend (hsmall _ (getElem_mem hnonce)) hbytes
    have hreads : Reads records left
        ⟨receiver.inboundCiphertexts, receiver.nonce + 1, decoder⟩ := ⟨hleft, hshort⟩
    obtain ⟨more, left', receiver', hleft', hopen, hframes, hnext, hreads'⟩ :=
      ih (show receiver.nonce + 1 + count ≤ _ by omega)
        (fun m hm => hsend m (by rw [hremaining]; exact mem_append_right _ hm)) hreads
    refine ⟨taken ++ more, left', receiver', by rw [hremaining, hleft', append_assoc], ?_,
      hframes, by rw [hnext]; exact Nat.succ_add_eq_add_succ _ _, hreads'⟩
    have hdecrypt : decrypt receiver.nonce (payload encrypt records receiver.nonce) =
        some records[receiver.nonce] := by
      rw [payload, hrecord, hideal]
    rw [List.range'_succ, map_cons]
    simp only [openAll, hdecrypt, hpush]
    rw [hopen]

/-- After some numbers arrived: the records before the missing one are opened. -/
structure Progress (encrypt : ℕ → Bytes → Bytes) (records remaining : List Bytes)
    (delivered : List ℕ) (receiver : Receiver) : Prop where
  keeps : receiver.inboundCiphertexts.Keeps List.length (payload encrypt records) delivered
  nonce : receiver.nonce = expected delivered
  reads : Reads records remaining receiver

variable (h : Progress encrypt records remaining delivered receiver)
  (hsend : ∀ message ∈ remaining, Sendable message)
include h hsend

/-- A record in the window is received. -/
theorem Progress.receiveData {seq : ℕ}
    (hnumbers : ∀ n ∈ delivered ++ [seq], n < records.length ∧ n + 1 < 2 ^ 32)
    (hfar : seq ≤ expected delivered + maxReorderDistance)
    (hsize : ∑ n ∈ ahead (delivered ++ [seq]), (payload encrypt records n).length ≤
      maxPendingBytes) :
    ∃ taken left receiver', remaining = taken ++ left ∧
      NoiseRelay.receiveData decrypt receiver seq (payload encrypt records seq) =
        (taken, .ok (), receiver') ∧
      Progress encrypt records left (delivered ++ [seq]) receiver' := by
  obtain ⟨count, hresult, hexpected, hkeeps⟩ :=
    h.keeps.push (fun n hn => (hnumbers n hn).2) hfar hsize
  rcases hpush : receiver.inboundCiphertexts.push List.length seq (payload encrypt records seq) with
    ⟨result, frames⟩
  rw [hpush] at hresult hkeeps
  have hcount : ({ receiver with inboundCiphertexts := frames } : Receiver).nonce + count ≤
      records.length := by
    rw [h.nonce, ← hexpected]
    exact expected_le fun n hn => (hnumbers n hn).1
  have hreads : Reads records remaining { receiver with inboundCiphertexts := frames } :=
    ⟨h.reads.bytes, h.reads.short⟩
  obtain ⟨taken, left, receiver', hremaining, hopen, hframes, hnext, hreads'⟩ :=
    openAll_spec hideal hsmall count hcount hsend hreads
  refine ⟨taken, left, receiver', hremaining, ?_, ⟨?_, ?_, hreads'⟩⟩
  · have hready : result = .ok ((List.range' receiver.nonce count).map (payload encrypt records)) := by
      rw [h.nonce]
      exact hresult
    unfold NoiseRelay.receiveData
    rw [hpush, hready]
    exact hopen
  · rw [hframes]
    exact hkeeps
  · rw [hnext, hexpected, ← h.nonce]

/-- **Within the window every delivery is received.** -/
theorem Progress.receiveAll (rest : List ℕ)
    (hnumbers : ∀ n ∈ delivered ++ rest, n < records.length ∧ n + 1 < 2 ^ 32)
    (hwindow : InWindow (fun n => (payload encrypt records n).length) (delivered ++ rest)) :
    ∃ taken left receiver', remaining = taken ++ left ∧
      NoiseRelay.receiveAll decrypt receiver (rest.map fun n => (n, payload encrypt records n)) =
        (taken, .ok (), receiver') ∧
      Progress encrypt records left (delivered ++ rest) receiver' := by
  induction rest generalizing delivered receiver remaining with
  | nil => exact ⟨[], remaining, receiver, rfl, rfl, by rwa [append_nil]⟩
  | cons seq rest ih =>
    have hsplit : delivered ++ seq :: rest = delivered ++ [seq] ++ rest := by simp
    obtain ⟨hfar, hsize⟩ := hwindow delivered seq rest rfl
    obtain ⟨taken, left, receiver', hremaining, hreceive, hprogress⟩ :=
      h.receiveData hideal hsmall hsend
        (fun n hn => hnumbers n (by rw [hsplit]; exact mem_append_left _ hn)) hfar hsize
    rw [hsplit] at hnumbers hwindow ⊢
    obtain ⟨more, left', receiver'', hleft, hall, hprogress'⟩ := ih hprogress
      (fun m hm => hsend m (by rw [hremaining]; exact mem_append_right _ hm)) hnumbers hwindow
    refine ⟨taken ++ more, left', receiver'', by rw [hremaining, hleft, append_assoc], ?_,
      hprogress'⟩
    rw [map_cons, NoiseRelay.receiveAll, hreceive]
    simp [hall]

end Ideal

theorem Progress.start (h : Cut messages records) :
    Progress encrypt records messages [] Receiver.start := by
  refine ⟨.start, expected_nil.symm, ?_, ?_⟩
  · show [] ++ (records.drop 0).flatten = _
    rw [drop_zero, nil_append, h.bytes]
  · exact fun message _ => Nat.add_pos_left (by decide) _

end Transport

section Example

end Example

end NoiseRelay

end CodexPlus
