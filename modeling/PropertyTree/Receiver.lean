import PropertyTree.Library.Framing
import PropertyTree.Library.Transition
import PropertyTree.Protocol

/-!
# Receiving frames

`ConnectionSession::handleRead` of the server and `Client::handleRead` are the same state machine
with different buffers: it reads a two-byte header and then the announced number of bytes, in as many
calls of `read` as it takes.  `Receiver size` is its state with an `mBuff` of `size` bytes.
-/

namespace PropertyTree

open Library Framing

/-! ## The state machine -/

/-- `ReadState`. -/
inductive ReadState where
  | waitHeader
  | waitRemaining
  deriving DecidableEq, Repr

/-- The receive state of a connection.  `mExpectedReadSize` is an `int` of which only the two lower
bytes are ever written. -/
structure Receiver (size : ℕ) where
  mBuff : List UInt8
  length_mBuff : mBuff.length = size
  mBuffIdx : UInt16
  mReadState : ReadState
  mExpectedReadSize : ℕ

/-- The number in the two bytes `memcpy` copies from the start of `mBuff`, the lower one first. -/
def headerValue (mBuff : List UInt8) : ℕ :=
  (mBuff.take 2).foldr (fun b v => b.toNat + 256 * v) 0

/-- The header that `Client::send` and `ProtocolHandler::encode` write: a `uint16_t`, the lower byte
first. -/
def lengthHeader (n : ℕ) : List UInt8 :=
  [UInt8.ofNat n, UInt8.ofNat (n / 256)]

/-- How a call of `handleRead` can fail: the connection ends, or bytes are written behind `mBuff`. -/
inductive ReadFailure where
  | ended
  | overflow
  deriving DecidableEq, Repr

namespace Receiver

variable {size : ℕ}

/-- The state of a new connection, whose `mBuff` is not initialised. -/
def init (mBuff : Vector UInt8 size) : Receiver size where
  mBuff := mBuff.toList
  length_mBuff := mBuff.length_toList
  mBuffIdx := 0
  mReadState := .waitHeader
  mExpectedReadSize := 0

/-- The number of bytes the next `read` asks for. -/
def readSize (r : Receiver size) : ℤ :=
  match r.mReadState with
  | .waitHeader => 2
  | .waitRemaining => r.mExpectedReadSize - r.mBuffIdx.toNat

/-- `read` has put the bytes `bs` at `mBuff + mBuffIdx`, and `mBuffIdx` moves on behind them. -/
def store (r : Receiver size) (bs : List UInt8) (h : r.mBuffIdx.toNat + bs.length ≤ size) :
    Receiver size :=
  { r with
    mBuff := r.mBuff.take r.mBuffIdx.toNat ++ bs ++ r.mBuff.drop (r.mBuffIdx.toNat + bs.length)
    length_mBuff := by
      have := r.length_mBuff
      simp only [List.length_append, List.length_take, List.length_drop]
      omega
    mBuffIdx := r.mBuffIdx + UInt16.ofNat bs.length }

/-- `handleRead`, when `read` has returned the bytes `bs`; it has failed when there are none.  The
result holds the payloads that are handed on, one at most. -/
def handleRead (r : Receiver size) (bs : List UInt8) :
    Except ReadFailure (Receiver size × List (List UInt8)) :=
  if bs = [] then .error .ended
  else if h : r.mBuffIdx.toNat + bs.length ≤ size then
    let r := r.store bs h
    match r.mReadState with
    | .waitHeader =>
      .ok ({ r with
        mExpectedReadSize := headerValue r.mBuff
        mBuffIdx := 0
        mReadState := .waitRemaining }, [])
    | .waitRemaining =>
      if r.mExpectedReadSize = r.mBuffIdx.toNat then
        .ok ({ r with mReadState := .waitHeader, mBuffIdx := 0 },
          [r.mBuff.take r.mBuffIdx.toNat])
      else .ok (r, [])
  else .error .overflow

/-- The steps of a receiver: `read` returns between one and `readSize` bytes. -/
def Step : Receiver size → List UInt8 × List (List UInt8) → Receiver size → Prop :=
  Guarded (fun r l => (l.1.length : ℤ) ≤ r.readSize) (StepOf handleRead)

/-! ## What one step can do -/

variable {r r' : Receiver size} {bs : List UInt8} {out : List (List UInt8)}

/-- The index is 0 before a header and does not pass the announced length behind it. -/
structure Sound (r : Receiver size) : Prop where
  header : r.mReadState = .waitHeader → r.mBuffIdx = 0
  remaining : r.mReadState = .waitRemaining → r.mBuffIdx.toNat ≤ r.mExpectedReadSize
  expected : r.mExpectedReadSize < 2 ^ 16

/-- A header announces a length of 16 bits. -/
theorem headerValue_lt (mBuff : List UInt8) : headerValue mBuff < 2 ^ 16 := by
  unfold headerValue
  match mBuff with
  | [] => simp
  | [b] =>
    have := b.toNat_lt
    simp only [List.take_succ_cons, List.take_nil, List.foldr_cons, List.foldr_nil]
    omega
  | b :: b' :: _ =>
    have := b.toNat_lt
    have := b'.toNat_lt
    simp only [List.take_succ_cons, List.take_zero, List.foldr_cons, List.foldr_nil]
    omega

/-- The branches of a step: one or two bytes of a header, a part of what remains, or the last part of
it. -/
inductive StepResult (r : Receiver size) (bs : List UInt8) :
    List (List UInt8) → Receiver size → Prop
  | header (r' : Receiver size) (hstate : r.mReadState = .waitHeader) (hlen : bs.length ≤ 2)
      (hbuff : r'.mBuff = bs ++ r.mBuff.drop bs.length) (hidx : r'.mBuffIdx = 0)
      (hstate' : r'.mReadState = .waitRemaining)
      (hexpected : r'.mExpectedReadSize = headerValue r'.mBuff) : StepResult r bs [] r'
  | part (r' : Receiver size) (hstate : r.mReadState = .waitRemaining)
      (hlt : r.mBuffIdx.toNat + bs.length < r.mExpectedReadSize)
      (hbuff : r'.mBuff.take r'.mBuffIdx.toNat = r.mBuff.take r.mBuffIdx.toNat ++ bs)
      (hidx : r'.mBuffIdx.toNat = r.mBuffIdx.toNat + bs.length)
      (hstate' : r'.mReadState = .waitRemaining)
      (hexpected : r'.mExpectedReadSize = r.mExpectedReadSize) : StepResult r bs [] r'
  | last (r' : Receiver size) (hstate : r.mReadState = .waitRemaining)
      (heq : r.mBuffIdx.toNat + bs.length = r.mExpectedReadSize) (hidx : r'.mBuffIdx = 0)
      (hlen : r.mBuffIdx.toNat ≤ r.mBuff.length)
      (hstate' : r'.mReadState = .waitHeader)
      (hexpected : r'.mExpectedReadSize = r.mExpectedReadSize) :
      StepResult r bs [r.mBuff.take r.mBuffIdx.toNat ++ bs] r'

/-- What is in the buffer up to the index after bytes have been stored. -/
theorem take_store (h : r.mBuffIdx.toNat + bs.length ≤ size)
    (hlt : r.mBuffIdx.toNat + bs.length < 2 ^ 16) :
    (r.store bs h).mBuffIdx.toNat = r.mBuffIdx.toNat + bs.length ∧
      (r.store bs h).mBuff.take (r.store bs h).mBuffIdx.toNat =
        r.mBuff.take r.mBuffIdx.toNat ++ bs := by
  have hidx : (r.store bs h).mBuffIdx.toNat = r.mBuffIdx.toNat + bs.length := by
    simp only [store, UInt16.toNat_add, UInt16.toNat_ofNat']
    omega
  refine ⟨hidx, ?_⟩
  rw [hidx]
  have hlen : (r.mBuff.take r.mBuffIdx.toNat ++ bs).length = r.mBuffIdx.toNat + bs.length := by
    have := r.length_mBuff
    simp only [List.length_append, List.length_take]
    omega
  simp only [store]
  rw [← hlen, List.take_left]

/-- A step of a sound receiver takes one of these branches. -/
theorem step_cases (hs : r.Sound) (h : Step r (bs, out) r') :
    bs ≠ [] ∧ StepResult r bs out r' := by
  obtain ⟨hsize, h⟩ := h
  change r.handleRead bs = .ok (r', out) at h
  unfold handleRead at h
  split_ifs at h with hne hfit
  refine ⟨hne, ?_⟩
  cases hstate : r.mReadState with
  | waitHeader =>
    have hidx := hs.header hstate
    have hlen : bs.length ≤ 2 := by
      simp only [readSize, hstate] at hsize
      omega
    simp only [store, hstate] at h
    cases h
    refine .header _ hstate hlen ?_ rfl rfl rfl
    simp [hidx]
  | waitRemaining =>
    have hexp := hs.expected
    have hle := hs.remaining hstate
    have hlen : r.mBuffIdx.toNat + bs.length ≤ r.mExpectedReadSize := by
      simp only [readSize, hstate] at hsize
      omega
    obtain ⟨hidx, htake⟩ := take_store hfit (by omega)
    have hlenBuff : r.mBuffIdx.toNat ≤ r.mBuff.length := by
      rw [r.length_mBuff]
      omega
    have hstate' : (r.store bs hfit).mReadState = .waitRemaining := hstate
    have hexp' : (r.store bs hfit).mExpectedReadSize = r.mExpectedReadSize := rfl
    simp only [hstate', hexp'] at h
    split_ifs at h with heq
    · cases h
      rw [htake]
      exact .last _ hstate (by omega) rfl hlenBuff rfl rfl
    · cases h
      exact .part _ hstate (by omega) htake hidx hstate' rfl

/-- A step keeps the receiver sound. -/
theorem Sound.step (hs : r.Sound) (h : Step r (bs, out) r') : r'.Sound := by
  obtain ⟨-, hres⟩ := step_cases hs h
  cases hres with
  | header _ hstate hlen hbuff hidx hstate' hexpected =>
    refine ⟨fun h => ?_, fun _ => ?_, ?_⟩
    · rw [hstate'] at h
      cases h
    · rw [hidx]
      exact Nat.zero_le _
    · rw [hexpected]
      exact headerValue_lt _
  | part _ hstate hlt hbuff hidx hstate' hexpected =>
    refine ⟨fun h => ?_, fun _ => ?_, ?_⟩
    · rw [hstate'] at h
      cases h
    · rw [hidx, hexpected]
      exact hlt.le
    · rw [hexpected]
      exact hs.expected
  | last _ hstate heq hidx hlen hstate' hexpected =>
    refine ⟨fun _ => hidx, fun h => ?_, ?_⟩
    · rw [hstate'] at h
      cases h
    · rw [hexpected]
      exact hs.expected

/-- A new connection's receiver is sound. -/
theorem sound_init (mBuff : Vector UInt8 size) : (init mBuff).Sound where
  header _ := rfl
  remaining h := by cases h
  expected := by simp [init]

/-- A run keeps the receiver sound. -/
theorem sound_of_run {ls : List (List UInt8 × List (List UInt8))} {mBuff : Vector UInt8 size}
    (h : Run Step (init mBuff) ls r) : r.Sound :=
  h.invariant (fun {_ l _} hs hstep => hs.step (show Step _ (l.1, l.2) _ from hstep)) (sound_init mBuff)

/-! ## The bounds of the buffer -/

/-- The next `read` stays inside `mBuff`, and the index has not passed the announced length. -/
structure Bounded (r : Receiver size) : Prop where
  request : r.mBuffIdx.toNat + r.readSize ≤ size
  index : r.mReadState = .waitRemaining → r.mBuffIdx.toNat ≤ r.mExpectedReadSize

/-- If the bytes read are those of a header, the length they announce, together with what was in the
buffer before where only one has come, is one that `mBuff` has room for. -/
def HeaderFits (r : Receiver size) (l : List UInt8 × List (List UInt8)) : Prop :=
  r.mReadState = .waitHeader → headerValue (l.1 ++ r.mBuff.drop l.1.length) ≤ size

/-- A step of a bounded receiver leads to a bounded receiver exactly when a header fits. -/
theorem bounded_step_iff (hsize : 2 ≤ size) (hs : r.Sound) (hb : r.Bounded)
    (h : Step r (bs, out) r') : r.HeaderFits (bs, out) ↔ r'.Bounded := by
  obtain ⟨-, hres⟩ := step_cases hs h
  have hb' := hb.request
  cases hres with
  | header _ hstate hlen hbuff hidx hstate' hexpected =>
    simp only [HeaderFits, hstate, true_implies, ← hbuff, ← hexpected]
    constructor
    · intro hle
      refine ⟨?_, fun _ => by simp [hidx]⟩
      simp only [readSize, hstate', hidx, UInt16.toNat_zero]
      omega
    · intro hb'
      have := hb'.request
      simp only [readSize, hstate', hidx, UInt16.toNat_zero] at this
      omega
  | part _ hstate hlt hbuff hidx hstate' hexpected =>
    refine iff_of_true (fun h => ?_) ⟨?_, fun _ => by omega⟩
    · rw [hstate] at h
      cases h
    · simp only [readSize, hstate] at hb'
      simp only [readSize, hstate', hexpected]
      omega
  | last _ hstate heq hidx hlen hstate' hexpected =>
    refine iff_of_true (fun h => ?_) ⟨?_, fun h => ?_⟩
    · rw [hstate] at h
      cases h
    · simp only [readSize, hstate', hidx, UInt16.toNat_zero]
      omega
    · rw [hstate'] at h
      cases h

end Receiver

/-! ## Reassembly of a stream -/

namespace Receiver

variable {size : ℕ} {r r' : Receiver size} {mBuff : Vector UInt8 size}
  {ls : List (List UInt8 × List (List UInt8))} {ps : List (List UInt8)}

/-- The bytes of a header are both read at once. -/
def HeaderWhole (r : Receiver size) (l : List UInt8 × List (List UInt8)) : Prop :=
  r.mReadState = .waitHeader → l.1.length = 2

/-- The payloads are handed on in order, each when exactly the bytes up to the end of its own frame
have been read. -/
structure Reassembled (ps : List (List UInt8)) (ls : List (List UInt8 × List (List UInt8))) :
    Prop where
  payloads : ls.flatMap Prod.snd = ps
  aligned : ∀ ls₁ l ls₂, ls = ls₁ ++ l :: ls₂ → l.2 ≠ [] →
    (ls₁ ++ [l]).flatMap Prod.fst = stream lengthHeader ((ls₁ ++ [l]).flatMap Prod.snd)

/-- The header of a length below `2 ^ 16` gives it back, and a longer one modulo `2 ^ 16`. -/
theorem headerValue_lengthHeader (n : ℕ) : headerValue (lengthHeader n) = n % 2 ^ 16 := by
  simp only [headerValue, lengthHeader, List.take_succ_cons, List.take_zero, List.foldr_cons,
    List.foldr_nil, UInt8.toNat_ofNat']
  omega

/-- Two bytes are the header of the length they announce. -/
theorem lengthHeader_headerValue {h : List UInt8} (hlen : h.length = 2) :
    lengthHeader (headerValue h) = h := by
  match h, hlen with
  | [a, b], _ =>
    have ha := a.toNat_lt
    have hb := b.toNat_lt
    simp only [headerValue, lengthHeader, List.take_succ_cons, List.take_zero, List.foldr_cons,
      List.foldr_nil]
    refine congrArg₂ (fun x y => [x, y]) ?_ ?_
    · rw [← UInt8.toNat_inj, UInt8.toNat_ofNat']
      omega
    · rw [← UInt8.toNat_inj, UInt8.toNat_ofNat']
      omega

/-- What has been read in a run whose headers all came whole: whole frames, and behind them a header
with less than it announces. -/
structure Framed (ls : List (List UInt8 × List (List UInt8))) (r : Receiver size) : Prop where
  header : r.mReadState = .waitHeader →
    ls.flatMap Prod.fst = stream lengthHeader (ls.flatMap Prod.snd)
  remaining : r.mReadState = .waitRemaining → ∃ h : List UInt8, h.length = 2 ∧
    r.mExpectedReadSize = headerValue h ∧
    (r.mBuffIdx.toNat < r.mExpectedReadSize ∨ r.mBuffIdx = 0) ∧
    r.mBuffIdx.toNat ≤ r.mBuff.length ∧
    ls.flatMap Prod.fst = stream lengthHeader (ls.flatMap Prod.snd) ++
      (h ++ r.mBuff.take r.mBuffIdx.toNat)
  payload : ∀ q ∈ ls.flatMap Prod.snd, q ≠ [] ∧ q.length < 2 ^ 16

/-- A step with a whole header keeps the frames apart. -/
theorem Framed.step {l : List UInt8 × List (List UInt8)} (h : Framed ls r) (hs : r.Sound)
    (hwhole : r.HeaderWhole l) (hstep : Step r l r') : Framed (ls ++ [l]) r' := by
  obtain ⟨bs, out⟩ := l
  obtain ⟨hne, hres⟩ := step_cases hs hstep
  have hexp := hs.expected
  cases hres with
  | header _ hstate hlen hbuff hidx hstate' hexpected =>
    have htwo : bs.length = 2 := hwhole hstate
    refine ⟨fun h => ?_, fun _ => ⟨bs, htwo, ?_, .inr hidx, by simp [hidx], ?_⟩, ?_⟩
    · rw [hstate'] at h
      cases h
    · rw [hexpected, hbuff]
      match bs, htwo with
      | [a, b], _ => simp [headerValue]
    · simp [h.header hstate, hidx]
    · simpa using h.payload
  | part _ hstate hlt hbuff hidx hstate' hexpected =>
    obtain ⟨hd, hdlen, hdval, -, hle, hcons⟩ := h.remaining hstate
    refine ⟨fun h => ?_, fun _ => ⟨hd, hdlen, by rw [hexpected, hdval], .inl (by omega), ?_, ?_⟩, ?_⟩
    · rw [hstate'] at h
      cases h
    · have := congrArg List.length hbuff
      simp only [List.length_take, List.length_append] at this
      omega
    · simp [hcons, hbuff]
    · simpa using h.payload
  | last _ hstate heq hidx hlen hstate' hexpected =>
    obtain ⟨hd, hdlen, hdval, -, -, hcons⟩ := h.remaining hstate
    have hq : (r.mBuff.take r.mBuffIdx.toNat ++ bs).length = r.mExpectedReadSize := by
      simp only [List.length_append, List.length_take]
      omega
    refine ⟨fun _ => ?_, fun h => ?_, ?_⟩
    · rw [List.flatMap_append, List.flatMap_append, hcons]
      simp only [List.flatMap_cons, List.flatMap_nil, List.append_nil]
      rw [stream_concat, frame, hq, hdval, lengthHeader_headerValue hdlen]
      simp only [List.append_assoc]
    · rw [hstate'] at h
      cases h
    · intro q hmem
      simp only [List.flatMap_append, List.mem_append, List.flatMap_cons, List.flatMap_nil,
        List.append_nil, List.mem_singleton] at hmem
      rcases hmem with hmem | rfl
      · exact h.payload q hmem
      · refine ⟨by simp [hne], ?_⟩
        rw [hq]
        exact hexp

/-- A run whose headers all come whole keeps the frames apart. -/
theorem framed_of_run (h : Run (Guarded HeaderWhole Step) (init mBuff) ls r) : Framed ls r := by
  suffices hinv : Framed ls r ∧ r.Sound from hinv.1
  refine h.history (P := fun ls r => Framed ls r ∧ r.Sound) ?_ ⟨⟨fun _ => rfl, fun h => ?_, ?_⟩,
    sound_init mBuff⟩
  · rintro ls r l r' ⟨hframed, hs⟩ ⟨hwhole, hstep⟩
    exact ⟨hframed.step hs hwhole hstep, hs.step (show Step r (l.1, l.2) r' from hstep)⟩
  · cases h
  · simp

/-- The lengths of the frames and of the payloads of a stream. -/
theorem length_stream (ps : List (List UInt8)) (p : List UInt8) :
    (stream lengthHeader (ps ++ [p])).length =
      (stream lengthHeader ps).length + 2 + p.length := by
  rw [stream_concat, frame]
  simp only [List.length_append, lengthHeader, List.length_cons, List.length_nil]
  omega

/-- In a run that keeps in step with the frames, a header of which only one byte was read is the last
thing read. -/
theorem whole_or_short (h : Run Step (init mBuff) ls r)
    (haligned : ∀ ls₁ l ls₂, ls = ls₁ ++ l :: ls₂ → l.2 ≠ [] →
      (ls₁ ++ [l]).flatMap Prod.fst = stream lengthHeader ((ls₁ ++ [l]).flatMap Prod.snd)) :
    Run (Guarded HeaderWhole Step) (init mBuff) ls r ∨
      (r.mReadState = .waitRemaining ∧ r.mBuffIdx.toNat ≤ r.mBuff.length ∧
        (ls.flatMap Prod.fst).length =
          (stream lengthHeader (ls.flatMap Prod.snd)).length + 1 + r.mBuffIdx.toNat) := by
  induction h with
  | nil => exact .inl (.nil _)
  | @snoc t u ls l run step ih =>
    have hs := sound_of_run run
    rcases ih fun ls₁ l' ls₂ heq hne => haligned ls₁ l' (ls₂ ++ [l]) (by simp [heq]) hne with
      hguard | ⟨hstate, hle, hlen⟩
    · by_cases hwhole : t.HeaderWhole l
      · exact .inl (hguard.snoc ⟨hwhole, step⟩)
      · right
        obtain ⟨bs, out⟩ := l
        have hcons := (framed_of_run hguard).header
        obtain ⟨hne, hres⟩ := step_cases hs step
        simp only [HeaderWhole, Classical.not_imp] at hwhole
        cases hres with
        | header _ hstate hlen hbuff hidx hstate' hexpected =>
          have hone : bs.length = 1 := by
            have := List.length_pos_iff.mpr hne
            omega
          refine ⟨hstate', by simp [hidx], ?_⟩
          simp [hcons hstate, hidx, hone]
        | part _ hstate => rw [hstate] at hwhole; cases hwhole.1
        | last _ hstate => rw [hstate] at hwhole; cases hwhole.1
    · right
      obtain ⟨bs, out⟩ := l
      obtain ⟨hne, hres⟩ := step_cases hs step
      cases hres with
      | header _ hstate₀ =>
        rw [hstate] at hstate₀
        cases hstate₀
      | part _ _ hlt hbuff hidx hstate' hexpected =>
        have := congrArg List.length hbuff
        simp only [List.length_take, List.length_append] at this
        refine ⟨hstate', by omega, ?_⟩
        simp only [List.flatMap_append, List.flatMap_cons, List.flatMap_nil, List.append_nil,
          List.length_append]
        omega
      | last _ _ heq hidx hlen' hstate' hexpected =>
        -- the payload would end one byte late
        exfalso
        have hal := congrArg List.length (haligned ls _ [] rfl (by simp))
        simp only [List.flatMap_append, List.flatMap_cons, List.flatMap_nil, List.append_nil,
          length_stream, List.length_append, List.length_take] at hal
        omega

/-- A stream of non-empty payloads that fit into the buffer is reassembled in exactly the runs in
which both bytes of every header are read at once, by the server's receiver and by the client's. -/
theorem reassembled_iff (hsize : size = 512 ∨ size = 1024 * 64)
    (hps : ∀ p ∈ ps, p ≠ [] ∧ p.length ≤ size) (hrun : Run Step (init mBuff) ls r)
    (hread : ls.flatMap Prod.fst = stream lengthHeader ps) :
    Reassembled ps ls ↔ Run (Guarded HeaderWhole Step) (init mBuff) ls r := by
  constructor
  · rintro ⟨hpay, haligned⟩
    rcases whole_or_short hrun haligned with hguard | ⟨-, -, hlen⟩
    · exact hguard
    · rw [hread, hpay] at hlen
      omega
  · intro hguard
    refine ⟨?_, fun ls₁ l ls₂ heq hne => ?_⟩
    · have hframed := framed_of_run hguard
      have hinj : ∀ q ∈ ls.flatMap Prod.snd, ∀ p ∈ ps,
          lengthHeader q.length = lengthHeader p.length → q.length = p.length := by
        intro q hq p hp heq
        have hval := congrArg headerValue heq
        rw [headerValue_lengthHeader, headerValue_lengthHeader] at hval
        obtain ⟨hqne, hqlt⟩ := hframed.payload q hq
        have := List.length_pos_iff.mpr hqne
        have := List.length_pos_iff.mpr (hps p hp).1
        have := (hps p hp).2
        omega
      have hrest : ∃ rest, Incomplete lengthHeader 2 ps rest ∧
          ls.flatMap Prod.fst = stream lengthHeader (ls.flatMap Prod.snd) ++ rest := by
        cases hstate : r.mReadState with
        | waitHeader => exact ⟨[], .inl rfl, by simpa using hframed.header hstate⟩
        | waitRemaining =>
          obtain ⟨hd, hdlen, hdval, hshort, hle, hcons⟩ := hframed.remaining hstate
          refine ⟨_, .inr ⟨hd, _, rfl, hdlen, fun p hp heq => ?_⟩, hcons⟩
          have hpos := List.length_pos_iff.mpr (hps p hp).1
          have hval : headerValue hd = p.length % 2 ^ 16 := by
            rw [← heq, headerValue_lengthHeader]
          have hmod := Nat.mod_le p.length (2 ^ 16)
          rw [List.length_take]
          rcases hshort with hlt | hzero
          · omega
          · rw [hzero, UInt16.toNat_zero]
            omega
      obtain ⟨rest, hinc, hcons⟩ := hrest
      exact (eq_of_stream_append lengthHeader (fun _ => rfl) hinj hinc (hcons ▸ hread)
        (by decide)).1
    · rw [heq, List.append_cons] at hguard
      obtain ⟨t, hrun₁, -⟩ := hguard.exists_of_append
      obtain ⟨u, hrun₀, -, hstep⟩ := hrun₁.exists_of_concat
      refine (framed_of_run hrun₁).header ?_
      obtain ⟨bs, out⟩ := l
      obtain ⟨-, hres⟩ := step_cases (sound_of_run hrun₀.of_guarded) hstep
      cases hres with
      | header => exact absurd rfl hne
      | part => exact absurd rfl hne
      | last _ _ _ _ _ hstate' => exact hstate'

/-- Whether a `read` returns no more than it is asked for, and a header whole. -/
def readsWhole (r : Receiver size) (bs : List UInt8) : Bool :=
  (bs.length : ℤ) ≤ r.readSize ∧ (r.mReadState = .waitHeader → bs.length = 2)

/-- Such reads are a run in which every header comes whole. -/
theorem run_of_reads {r r' : Receiver size} {reads : List (List UInt8)}
    {ls : List (List UInt8 × List (List UInt8))}
    (h : execute handleRead readsWhole r reads = some (r', ls)) :
    Run (Guarded HeaderWhole Step) r ls r' :=
  (run_of_execute handleRead h).mono fun _ _ _ hst =>
    ⟨(of_decide_eq_true hst.1).2, (of_decide_eq_true hst.1).1, hst.2⟩

/-- Two payloads whose headers come whole are handed on, the second of which takes two reads. -/
theorem reassembled_split : ∃ ls, ls.map Prod.fst = [[1, 0], [7], [3, 0], [8], [9, 10]] ∧
    Reassembled [[7], [8, 9, 10]] ls := by
  obtain ⟨⟨r, ls⟩, hexec, hls⟩ : ∃ x : Receiver 512 × List (List UInt8 × List (List UInt8)),
      execute handleRead readsWhole (init (.replicate 512 0)) [[1, 0], [7], [3, 0], [8], [9, 10]] =
        some x ∧
      x.2 = [([1, 0], []), ([7], [[7]]), ([3, 0], []), ([8], []), ([9, 10], [[8, 9, 10]])] :=
    ⟨_, rfl, by decide⟩
  have hguard := run_of_reads hexec
  subst hls
  exact ⟨_, rfl, (reassembled_iff (.inl rfl) (by decide) (hguard.mono fun _ _ _ hst => hst.2)
    rfl).mpr hguard⟩

/-- When the header of a second frame comes byte by byte, its length is taken from one byte of its
own and one left in the buffer, and its second byte is handed on as the payload. -/
theorem not_reassembled_short_header :
    ¬ ∀ (mBuff : Vector UInt8 512) ps ls r, (∀ p ∈ ps, p ≠ [] ∧ p.length ≤ 512) →
      Run Step (init mBuff) ls r → ls.flatMap Prod.fst = stream lengthHeader ps →
      ls.flatMap Prod.snd = ps := by
  intro h
  obtain ⟨⟨r, ls⟩, hexec, hbytes, hpayloads⟩ :
      ∃ x : Receiver 512 × List (List UInt8 × List (List UInt8)),
        execute handleRead (fun r bs => decide ((bs.length : ℤ) ≤ r.readSize))
          (init (.replicate 512 0)) [[1, 0], [7], [1], [0], [8]] = some x ∧
        x.2.flatMap Prod.fst = stream lengthHeader [[7], [8]] ∧ x.2.flatMap Prod.snd = [[7], [0]] :=
    ⟨_, rfl, by decide, by decide⟩
  have hrun : Run Step (init (.replicate 512 0)) ls r :=
    (run_of_execute handleRead hexec).mono fun r l r' hst => ⟨of_decide_eq_true hst.1, hst.2⟩
  have := h _ _ ls r (by decide) hrun hbytes
  rw [hpayloads] at this
  cases this

end Receiver

/-- `ConnectionSession::mBuff` has 512 bytes. -/
abbrev Server.ConnectionSession := Receiver 512

/-- `ConnectionSession::handleRead`; where the connection ends it calls `mServer.onDisconnect`. -/
def Server.ConnectionSession.handleRead (r : Server.ConnectionSession) (bs : List UInt8) :
    Except ReadFailure (Server.ConnectionSession × List (List UInt8)) :=
  Receiver.handleRead r bs

/-- In exactly the runs in which every header fits, the server's `read`s stay inside its buffer. -/
theorem Server.ConnectionSession.bounded_iff (mBuff : Vector UInt8 512)
    {ls : List (List UInt8 × List (List UInt8))} {r : Server.ConnectionSession} :
    Run (Guarded Receiver.HeaderFits Receiver.Step) (.init mBuff) ls r ↔
      Run (Reaching Receiver.Bounded Receiver.Step) (.init mBuff) ls r := by
  refine Run.guarded_iff_reaching (I := Receiver.Sound) (fun {t l u} hs hstep => ?_)
    (fun {t l u} hs hb hstep => ?_) (Receiver.sound_init mBuff) ⟨?_, fun h => by cases h⟩
  · exact hs.step (show Receiver.Step t (l.1, l.2) u from hstep)
  · exact Receiver.bounded_step_iff (by decide) hs hb hstep
  · simp [Receiver.readSize, Receiver.init]

/-- A header that announces 513 bytes makes the next `read` ask for more than the buffer holds. -/
theorem Server.ConnectionSession.not_bounded :
    ¬ ∀ (mBuff : Vector UInt8 512) ls (r : Server.ConnectionSession),
      Run Receiver.Step (.init mBuff) ls r → r.Bounded := by
  intro h
  have hb := h (.replicate 512 0) [([1, 2], [])] _ (.single ⟨by decide, rfl⟩)
  revert hb
  rintro ⟨hreq, -⟩
  revert hreq
  decide

/-- `Client::mBuff` has 64 KiB. -/
abbrev Client.Connection := Receiver (1024 * 64)

/-- `Client::handleRead`; where the connection ends it throws. -/
def Client.Connection.handleRead (r : Client.Connection) (bs : List UInt8) :
    Except ReadFailure (Client.Connection × List (List UInt8)) :=
  Receiver.handleRead r bs

end PropertyTree
