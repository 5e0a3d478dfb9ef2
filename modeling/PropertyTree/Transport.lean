import PropertyTree.Codec
import PropertyTree.Receiver

/-!
# From one end of a connection to the other

`Client::send` and `ProtocolHandler::encode` put a payload behind its length into a buffer of the size
that the other end receives into, 512 bytes towards the server and 64 KiB towards a client.  What is
decoded at the other end is what has been sent, in order, however the bytes are cut on the way, as
long as both bytes of a header are read at once.
-/

namespace PropertyTree

open Library Framing

variable {p : Per} {size : ℕ} {x : PropertyTreeProtocol} {xs : List PropertyTreeProtocol}
  {sent : List UInt8}

/-- The bytes that are sent for a payload out of a buffer of `size` bytes, or nothing where
`encode_per` runs out of it.  What is left of the buffer is `context.size()`. -/
def encodeFrame (p : Per) (size : ℕ) (x : PropertyTreeProtocol) : Option (List UInt8) :=
  if (x.encodePer p).length ≤ size - 2 then
    let left := size - 2 - (x.encodePer p).length
    let msgSize := UInt16.ofNat (size - left - 2)
    some (lengthHeader msgSize.toNat ++ x.encodePer p)
  else none

/-- The bytes that are sent for payloads one after the other. -/
def encodeFrames (p : Per) (size : ℕ) (xs : List PropertyTreeProtocol) : Option (List UInt8) :=
  (xs.mapM (encodeFrame p size)).map List.flatten

/-- The header that is sent tells the length of the payload. -/
theorem encodeFrame_eq_some (hsize : 2 ≤ size ∧ size ≤ 2 ^ 16) {bs : List UInt8}
    (h : encodeFrame p size x = some bs) :
    (x.encodePer p).length ≤ size - 2 ∧ bs = frame lengthHeader (x.encodePer p) := by
  unfold encodeFrame at h
  split_ifs at h with hle
  refine ⟨hle, ?_⟩
  have hleft : size - (size - 2 - (x.encodePer p).length) - 2 = (x.encodePer p).length := by omega
  have hlt : (x.encodePer p).length < 2 ^ 16 := by omega
  simp only [hleft, Option.some.injEq] at h
  rw [← h, frame, UInt16.toNat_ofNat', Nat.mod_eq_of_lt hlt]

/-- What is sent is a stream of frames that fit into the buffer. -/
theorem encodeFrames_eq_some (hsize : 2 ≤ size ∧ size ≤ 2 ^ 16)
    (h : encodeFrames p size xs = some sent) :
    sent = stream lengthHeader (xs.map (PropertyTreeProtocol.encodePer p)) ∧
      ∀ x ∈ xs, (x.encodePer p).length ≤ size - 2 := by
  induction xs generalizing sent with
  | nil =>
    cases h
    exact ⟨rfl, fun x hx => by cases hx⟩
  | cons x xs ih =>
    simp only [encodeFrames, List.mapM_cons, Option.bind_eq_bind, Option.map_eq_some_iff,
      Option.bind_eq_some_iff, Option.pure_def, Option.some.injEq] at h
    obtain ⟨_, ⟨bs, hbs, frames, hframes, rfl⟩, rfl⟩ := h
    obtain ⟨hle, rfl⟩ := encodeFrame_eq_some hsize hbs
    have htail : encodeFrames p size xs = some frames.flatten := by simp [encodeFrames, hframes]
    obtain ⟨hstream, hall⟩ := ih htail
    refine ⟨?_, List.forall_mem_cons.mpr ⟨hle, hall⟩⟩
    rw [List.map_cons, stream_cons, ← hstream, List.flatten_cons]

/-- Payloads are sent exactly if each of them fits into the buffer. -/
theorem exists_encodeFrames_iff (hsize : 2 ≤ size ∧ size ≤ 2 ^ 16) :
    (∃ sent, encodeFrames p size xs = some sent) ↔ ∀ x ∈ xs, (x.encodePer p).length ≤ size - 2 := by
  constructor
  · rintro ⟨sent, hsent⟩
    exact (encodeFrames_eq_some hsize hsent).2
  · intro hall
    induction xs with
    | nil => exact ⟨[], rfl⟩
    | cons x xs ih =>
      obtain ⟨hx, hxs⟩ := List.forall_mem_cons.mp hall
      obtain ⟨sent, hsent⟩ := ih hxs
      obtain ⟨frames, hframes, -⟩ := Option.map_eq_some_iff.mp hsent
      have hone : encodeFrame p size x = some _ := if_pos hx
      exact ⟨_, by rw [encodeFrames, List.mapM_cons, hone, hframes]; rfl⟩

/-- A byte is written with at least one byte. -/
theorem Per.Lawful.u8_ne_nil (hp : p.Lawful) (a : UInt8) : p.u8.encode a ≠ [] := by
  intro hnil
  have hpre : p.u8.encode a <+: p.u8.encode (a + 1) := by
    rw [hnil]
    exact List.nil_prefix
  have heq := (hp.u8.prefix_free (a := a) (b := a + 1) ⟨trivial, rfl⟩ ⟨trivial, rfl⟩ hpre).1
  have hval := congrArg UInt8.toNat heq
  rw [UInt8.toNat_add] at hval
  have hlt := a.toNat_lt
  have hone : (1 : UInt8).toNat = 1 := rfl
  omega

/-- No payload is empty. -/
theorem PropertyTreeProtocol.encodePer_ne_nil (hp : p.Lawful) (x : PropertyTreeProtocol) :
    x.encodePer p ≠ [] := by
  cases x with
  | propertyTreeMessage m => exact List.append_ne_nil_of_left_ne_nil (hp.u8_ne_nil 0) _
  | propertyTreeMessageArray ms => exact List.append_ne_nil_of_left_ne_nil (hp.u8_ne_nil 1) _

namespace Receiver

variable {r : Receiver size} {mBuff : Vector UInt8 size}
  {ls : List (List UInt8 × List (List UInt8))}

/-- What has been read of a stream of payloads, when both bytes of every header were read at once,
are the first payloads, and a part of the next one. -/
theorem exists_of_prefix {ps : List (List UInt8)} (hps : ∀ q ∈ ps, q ≠ [] ∧ q.length < 2 ^ 16)
    (hrun : Run (Guarded HeaderWhole Step) (init mBuff) ls r)
    (hread : ls.flatMap Prod.fst <+: stream lengthHeader ps) :
    ∃ todo, ps = ls.flatMap Prod.snd ++ todo ∧
      (ls.flatMap Prod.fst = stream lengthHeader ps → todo = []) := by
  have hframed := framed_of_run hrun
  have hinj : ∀ q ∈ ls.flatMap Prod.snd, ∀ p ∈ ps,
      lengthHeader q.length = lengthHeader p.length → q.length = p.length := by
    intro q hq p hp heq
    have hval := congrArg headerValue heq
    rw [headerValue_lengthHeader, headerValue_lengthHeader] at hval
    have hqlt := (hframed.payload q hq).2
    have hplt := (hps p hp).2
    omega
  obtain ⟨rest, hrest, hshort⟩ : ∃ rest, ls.flatMap Prod.fst =
      stream lengthHeader (ls.flatMap Prod.snd) ++ rest ∧ ∀ q ∈ ps, ∀ more,
        rest ≠ lengthHeader q.length ++ q ++ more := by
    cases hstate : r.mReadState with
    | waitHeader => exact ⟨[], by simpa using hframed.header hstate, by simp [lengthHeader]⟩
    | waitRemaining =>
      obtain ⟨hd, hdlen, hdval, hshort, -, hcons⟩ := hframed.remaining hstate
      refine ⟨_, hcons, fun q hq more heq => ?_⟩
      rw [List.append_assoc] at heq
      obtain ⟨rfl, hbody⟩ := List.append_inj heq hdlen
      have hlen := congrArg List.length hbody
      have hpos := List.length_pos_iff.mpr (hps q hq).1
      rw [headerValue_lengthHeader, Nat.mod_eq_of_lt (hps q hq).2] at hdval
      simp only [List.length_take, List.length_append] at hlen
      rcases hshort with hlt | hzero
      · omega
      · rw [hzero, UInt16.toNat_zero] at hlen
        omega
  obtain ⟨more, hmore⟩ := hread
  rw [hrest, List.append_assoc] at hmore
  obtain ⟨todo, rfl, htodo⟩ := exists_of_stream_append lengthHeader (fun _ => rfl)
    (show 0 < 2 by decide) hinj hmore
  refine ⟨todo, rfl, fun hall => ?_⟩
  rw [hrest, stream_append] at hall
  have hall := List.append_cancel_left hall
  cases todo with
  | nil => rfl
  | cons q todo =>
    rw [stream_cons, frame] at hall
    exact absurd hall (hshort q (List.mem_append_right _ List.mem_cons_self) _)

/-- What is decoded of what has been sent to this end are the first payloads that have been sent, and
all of them once everything has been read. -/
theorem decoded_of_run (hp : p.Lawful) (hsize : size = 512 ∨ size = 1024 * 64)
    (hx : ∀ x ∈ xs, x.Encodable) (hsent : encodeFrames p size xs = some sent)
    (hrun : Run (Guarded HeaderWhole Step) (init mBuff) ls r)
    (hread : ls.flatMap Prod.fst <+: sent) :
    ∃ done, done <+: xs ∧ (ls.flatMap Prod.fst = sent → done = xs) ∧
      (ls.flatMap Prod.snd).map (PropertyTreeProtocol.decodePer p).run =
        done.map fun x => some (x, []) := by
  have hbound : 2 ≤ size ∧ size ≤ 2 ^ 16 := by omega
  obtain ⟨rfl, hlen⟩ := encodeFrames_eq_some hbound hsent
  have hps : ∀ q ∈ xs.map (PropertyTreeProtocol.encodePer p), q ≠ [] ∧ q.length < 2 ^ 16 := by
    intro q hq
    obtain ⟨x, hxs, rfl⟩ := List.mem_map.mp hq
    have hle := hlen x hxs
    exact ⟨x.encodePer_ne_nil hp, by omega⟩
  obtain ⟨rest, hrest, hnil⟩ := exists_of_prefix hps hrun hread
  obtain ⟨done, todo, rfl, hdone, htodo⟩ := List.map_eq_append_iff.mp hrest
  refine ⟨done, List.prefix_append done todo, fun hall => ?_, ?_⟩
  · rw [hnil hall, List.map_eq_nil_iff] at htodo
    rw [htodo, List.append_nil]
  · rw [← hdone, List.map_map]
    refine List.map_congr_left fun x hxd => ?_
    have hread := PropertyTreeProtocol.decodePer_encodePer hp (hx x (List.mem_append_left _ hxd)) []
    rwa [List.append_nil] at hread

/-- The same for payloads of one message each. -/
theorem decoded_of_messages (hp : p.Lawful) (hsize : size = 512 ∨ size = 1024 * 64)
    {ms : List PropertyTreeMessage} (hms : ∀ m ∈ ms, m.message.Encodable)
    (hsent : encodeFrames p size (ms.map .propertyTreeMessage) = some sent)
    (hrun : Run (Guarded HeaderWhole Step) (init mBuff) ls r) (hread : ls.flatMap Prod.fst <+: sent) :
    ∃ done, done <+: ms ∧ (ls.flatMap Prod.fst = sent → done = ms) ∧
      (ls.flatMap Prod.snd).map (PropertyTreeProtocol.decodePer p).run =
        done.map fun m => some (.propertyTreeMessage m, []) := by
  have hxs : ∀ x ∈ ms.map PropertyTreeProtocol.propertyTreeMessage, x.Encodable := by
    intro x hx
    obtain ⟨m, hm, rfl⟩ := List.mem_map.mp hx
    exact hms m hm
  obtain ⟨done, hdone, hall, hdec⟩ := decoded_of_run hp hsize hxs hsent hrun hread
  obtain ⟨todo, htodo⟩ := hdone
  obtain ⟨ms₁, ms₂, rfl, rfl, rfl⟩ := List.map_eq_append_iff.mp htodo.symm
  refine ⟨ms₁, List.prefix_append ms₁ ms₂, fun heq => ?_, ?_⟩
  · have hlen := congrArg List.length (hall heq)
    simp only [List.length_map, List.length_append] at hlen
    rw [List.length_eq_zero_iff.mp (show ms₂.length = 0 by omega), List.append_nil]
  · rw [hdec, List.map_map]
    rfl

end Receiver

/-- What a client decodes are the messages that the server has sent to it, in order, and all of them
once it has read everything. -/
theorem Client.Connection.decoded_of_sent (hp : p.Lawful) {ms : List PropertyTreeMessage}
    (hms : ∀ m ∈ ms, m.message.Encodable)
    (hsent : encodeFrames p (1024 * 64) (ms.map .propertyTreeMessage) = some sent)
    {mBuff : Vector UInt8 (1024 * 64)} {ls : List (List UInt8 × List (List UInt8))}
    {r : Client.Connection} (hrun : Run (Guarded Receiver.HeaderWhole Receiver.Step) (.init mBuff) ls r)
    (hread : ls.flatMap Prod.fst <+: sent) :
    ∃ done, done <+: ms ∧ (ls.flatMap Prod.fst = sent → done = ms) ∧
      (ls.flatMap Prod.snd).map (PropertyTreeProtocol.decodePer p).run =
        done.map fun m => some (.propertyTreeMessage m, []) :=
  Receiver.decoded_of_messages hp (.inr rfl) hms hsent hrun hread

/-- An answer that is read in three parts, and a notification after it that is read in two. -/
theorem Client.Connection.decoded_answer_notification :
    ∃ ls : List (List UInt8 × List (List UInt8)), ls.map Prod.fst =
        [[5, 0], [0, 1], [0, 15, 0], [17, 0], [0, 255, 255, 21, 1, 0, 0, 0, 0, 0, 0, 0, 1, 0, 0, 0, 7]] ∧
      (ls.flatMap Prod.snd).map (PropertyTreeProtocol.decodePer Per.littleEndian).run =
        [some (PropertyTreeProtocol.propertyTreeMessage ⟨1, .setValueAccept 0⟩, []),
          some (PropertyTreeProtocol.propertyTreeMessage
            ⟨notificationId, .updateNotification 1 [7]⟩, [])] := by
  obtain ⟨⟨r, ls⟩, hexec, hls⟩ : ∃ x : Receiver (1024 * 64) × List (List UInt8 × List (List UInt8)),
      execute Receiver.handleRead Receiver.readsWhole (Receiver.init (.replicate (1024 * 64) 0))
          [[5, 0], [0, 1], [0, 15, 0], [17, 0],
            [0, 255, 255, 21, 1, 0, 0, 0, 0, 0, 0, 0, 1, 0, 0, 0, 7]] = some x ∧
        x.2 = [([5, 0], []), ([0, 1], []), ([0, 15, 0], [[0, 1, 0, 15, 0]]), ([17, 0], []),
          ([0, 255, 255, 21, 1, 0, 0, 0, 0, 0, 0, 0, 1, 0, 0, 0, 7],
            [[0, 255, 255, 21, 1, 0, 0, 0, 0, 0, 0, 0, 1, 0, 0, 0, 7]])] :=
    ⟨_, rfl, by decide⟩
  have hrun := Receiver.run_of_reads hexec
  subst hls
  have hms : ∀ m ∈ [(⟨1, .setValueAccept 0⟩ : PropertyTreeMessage),
      ⟨notificationId, .updateNotification 1 [7]⟩], m.message.Encodable := by
    simp [PropertyTreeMessages.Encodable]
  have hsent : encodeFrames Per.littleEndian (1024 * 64)
      ([(⟨1, .setValueAccept 0⟩ : PropertyTreeMessage),
        ⟨notificationId, .updateNotification 1 [7]⟩].map .propertyTreeMessage) =
        some [5, 0, 0, 1, 0, 15, 0, 17, 0, 0, 255, 255, 21, 1, 0, 0, 0, 0, 0, 0, 0, 1, 0, 0, 0, 7] :=
    rfl
  obtain ⟨done, -, hall, hdec⟩ := decoded_of_sent Per.lawful_littleEndian hms hsent hrun (by decide)
  obtain rfl := hall rfl
  exact ⟨_, rfl, hdec⟩

end PropertyTree
