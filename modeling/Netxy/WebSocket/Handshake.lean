import Netxy.Http.HttpFormat
import Netxy.Utils.Base64
import Netxy.Utils.Sha1Stream

/-!
# `WebSocketFormat::wsHandshake`

The answer to the opening handshake: the accept value is the hash of the client's key and a
fixed string, in letters. `wsHandshake_accepts` takes the answer apart as a client does.
-/

namespace Netxy.WebSocketFormat

open CString HttpFormat Http SecureHash

/-- The string appended to the key. -/
def handshakeGuid : List UInt8 := ascii "258EAFA5-E914-47DA-95CA-C5AB0DC85B11"

/-- The answer, up to the accept value. -/
def handshakeHead : List UInt8 :=
  ascii "HTTP/1.1 101 Switching Protocols\r\n" ++ ascii "Upgrade: websocket\r\n" ++
    ascii "Connection: Upgrade\r\n" ++ ascii "Sec-WebSocket-Accept: "

/-- `wsHandshake`; `none` where the hash leaves an array. `memory` and `array` are what the
hash object and the local array of `base64_encode` hold at first. -/
def wsHandshake (memory : Sha1.CSHA1) (array : Vector UInt8 3) (secKey : List UInt8) :
    Option (List UInt8) := do
  let secKey := secKey ++ handshakeGuid
  let s1 := Sha1.CSHA1.new memory
  let s1 ← s1.update secKey (BitVec.ofNat 32 secKey.length)
  let s1 ← s1.final
  let base64Str := Base64.encode array s1.getHash
  return handshakeHead ++ base64Str ++ ascii "\r\n\r\n"

/-- The accept value of the protocol. -/
def acceptValue (secKey : List UInt8) : List UInt8 :=
  Base64.standard (sha1 (secKey ++ handshakeGuid))

theorem isVisible_letter : ∀ x : BitVec 6, isVisible (Base64.letter x) = true := by decide

/-- Letters and padding are visible characters. -/
theorem isVisible_of_mem_acceptValue {secKey : List UInt8} {c : UInt8}
    (h : c ∈ acceptValue secKey) : isVisible c := by
  rw [acceptValue, Base64.standard, List.mem_append] at h
  rcases h with h | h
  · rw [Base64.letters, List.mem_map] at h
    obtain ⟨x, -, rfl⟩ := h
    exact isVisible_letter x
  · rw [List.eq_of_mem_replicate h]
    decide

/-- The three header fields of the answer. -/
def handshakeFields (secKey : List UInt8) : List (Bytes × Bytes) :=
  [(ascii "Upgrade", ascii "websocket"), (ascii "Connection", ascii "Upgrade"),
    (ascii "Sec-WebSocket-Accept", acceptValue secKey)]

theorem wsHandshake_eq (memory : Sha1.CSHA1) (array : Vector UInt8 3) (secKey : List UInt8)
    (h : secKey.length + 99 < 2 ^ 32) :
    wsHandshake memory array secKey =
      some (handshakeHead ++ acceptValue secKey ++ ascii "\r\n\r\n") := by
  have hlen : (secKey ++ handshakeGuid).length = secKey.length + 36 := by
    rw [List.length_append]
    rfl
  have hword : (BitVec.ofNat 32 (secKey ++ handshakeGuid).length).toNat =
      (secKey ++ handshakeGuid).length := by
    rw [BitVec.toNat_ofNat, Nat.mod_eq_of_lt (by omega)]
  obtain ⟨s₁, hs₁, h₁⟩ := Sha1.CSHA1.update_holds (Sha1.CSHA1.new_holds memory) hword (by omega)
  obtain ⟨s₂, hs₂, hdigest⟩ := Sha1.CSHA1.final_digest h₁
  rw [List.nil_append] at hdigest
  unfold wsHandshake
  simp only [hs₁, hs₂, hdigest, Option.bind_eq_bind, Option.bind_some, Base64.encode_eq]
  rfl

/-- The fields are as the grammar has them. -/
theorem properField_handshakeFields (secKey : List UInt8) :
    ∀ v ∈ handshakeFields secKey, ProperField v := by
  have hname : ∀ {name : List UInt8}, name.all isTokenChar → ∀ c ∈ name, isTokenChar c :=
    List.all_eq_true.mp
  intro v hv
  simp only [handshakeFields, List.mem_cons, List.not_mem_nil, or_false] at hv
  rcases hv with rfl | rfl | rfl
  · exact properField_of_isVisible (by decide) (hname (by decide)) (List.all_eq_true.mp (by decide))
  · exact properField_of_isVisible (by decide) (hname (by decide)) (List.all_eq_true.mp (by decide))
  · exact properField_of_isVisible (by decide) (hname (by decide))
      fun _ hc => isVisible_of_mem_acceptValue hc

/-- The status line of a switch of protocols. -/
def switchLine : StatusLine where
  code := ascii "101"
  reason := ascii "Switching Protocols"
  code_length := by decide
  code_digit := List.all_eq_true.mp (by decide)
  reason_text := List.all_eq_true.mp (by decide)

/-- The answer, as lines. -/
theorem handshake_text (secKey : List UInt8) :
    handshakeHead ++ acceptValue secKey ++ ascii "\r\n\r\n" =
      (StartLine.status switchLine).bytes ++ crlf ++ (headText (handshakeFields secKey) ++ []) := by
  have hend : ascii "\r\n\r\n" = crlf ++ crlf := by decide
  have hhead : handshakeHead = (StartLine.status switchLine).bytes ++ crlf ++
      (ascii "Upgrade" ++ ascii ": " ++ ascii "websocket" ++ crlf ++
        (ascii "Connection" ++ ascii ": " ++ ascii "Upgrade" ++ crlf ++
          (ascii "Sec-WebSocket-Accept" ++ ascii ": "))) := by decide
  rw [hhead, hend]
  simp only [headText, handshakeFields, List.flatMap_cons, List.flatMap_nil, List.append_assoc,
    List.append_nil]

/-- **The opening handshake.** For every key the answer is a switch of protocols whose accept
value is the hash of the key and the fixed string in letters: a client that takes the answer
apart and decodes the value gets the hash it has computed. -/
theorem wsHandshake_accepts (memory : Sha1.CSHA1) (array : Vector UInt8 3) (array' : Vector UInt8 4)
    (secKey : List UInt8) (h : secKey.length + 99 < 2 ^ 32) :
    ∃ response, wsHandshake memory array secKey = some response ∧
      splitResponse response =
        some ⟨ascii "HTTP/1.1", ascii "101", ascii "Switching Protocols",
          handshakeFields secKey, []⟩ ∧
      Base64.decode array' (acceptValue secKey) = sha1 (secKey ++ handshakeGuid) := by
  refine ⟨_, wsHandshake_eq memory array secKey h, ?_, ?_⟩
  · rw [handshake_text, splitResponse_of_proper switchLine (properField_handshakeFields secKey)]
    rfl
  · apply Base64.decode_standard
    rw [length_sha1]
    omega

/-- The key of a handshake, with other bytes in the uninitialised memory. -/
theorem wsHandshake_accepts_sample :
    ∃ response, wsHandshake ⟨initial, 1, 2, Vector.replicate 64 7, Vector.replicate 20 9⟩
        #v[1, 2, 3] (ascii "dGhlIHNhbXBsZSBub25jZQ==") = some response ∧
      splitResponse response =
        some ⟨ascii "HTTP/1.1", ascii "101", ascii "Switching Protocols",
          handshakeFields (ascii "dGhlIHNhbXBsZSBub25jZQ=="), []⟩ ∧
      Base64.decode #v[1, 2, 3, 4] (acceptValue (ascii "dGhlIHNhbXBsZSBub25jZQ==")) =
        sha1 (ascii "dGhlIHNhbXBsZSBub25jZQ==" ++ handshakeGuid) :=
  wsHandshake_accepts _ _ _ _ (by decide)

end Netxy.WebSocketFormat
