import DTrace.Lib.ByteMem
import DTrace.Speculation.Consume

/-!
# The perf ring buffer of a CPU

The kernel writes events to a ring buffer of `2 ^ bits` bytes and advances its head;
`dt_consume_cpu` takes the events from the tail on. Heads and tails only grow, and the place of an
event is its position modulo the size. An event that goes over the end of the buffer is put together
in a side buffer, which is kept, with what it holds, for the next one.

* `Events` is a well-formed sequence of events between a tail and a head, each as its bytes are read
  around the end of the buffer (`Ring.cyclic`).
* `event_eq_cyclic` says that what is passed on is that.
* `dtConsumeCpu_feeds` says that all events are passed on, each once and in order, and that the tail
  is the head in the end.
-/

namespace DTrace.Consume

open List Nat

open Speculation (Status Peek)

abbrev Byte := Fin 256

/-! ## One event -/

/-- The data of a buffer is at `base`, after the page with the head and the tail. -/
structure Ring where
  base : Nat
  bits : Nat
  /-- no event that starts in the buffer goes over the end of the address space -/
  fits : base + 2 ^ bits + 2 ^ 16 ≤ 2 ^ 64

namespace Ring

variable (ring : Ring)

def dataSize : Nat := 2 ^ ring.bits

def endp : Nat := ring.base + ring.dataSize - 1

/-- The address of the event at a position. -/
def event (tail : Nat) : Nat := ring.base + tail % ring.dataSize

/-- The bytes of an event, read around the end of the buffer. -/
def cyclic (mem : ByteMem) (tail size : Nat) : List Byte :=
  (List.range size).map fun i => mem (ring.base + (tail + i) % ring.dataSize)

end Ring

/-- `hdr->size` -/
def hdrSize (mem : ByteMem) (hdr : Nat) : Nat := mem.u16 (hdr + 6)

/-- `realloc` keeps what there is; what it adds can be anything. -/
def grow (junk : Nat → Byte) (tmp : List Byte) (len : Nat) : List Byte :=
  tmp ++ (List.range (len - tmp.length)).map fun i => junk (tmp.length + i)

/-- `memcpy` to a place in a buffer. -/
def memcpy (dst : List Byte) (at_ : Nat) (src : List Byte) : List Byte :=
  dst.take at_ ++ src ++ dst.drop (at_ + src.length)

/-- The side buffer after an event that goes over the end has been put together in it. -/
def wrapEvent (ring : Ring) (junk : Nat → Byte) (mem : ByteMem) (event len : Nat)
    (tmp : List Byte) : List Byte :=
  let dst := if tmp.length < len then grow junk tmp len else tmp
  let num := ring.endp - event + 1
  memcpy (memcpy dst 0 (mem.bytes event num)) num (mem.bytes ring.base (len - num))

/-- The bytes that are passed on for an event, and the side buffer. -/
def takeEvent (ring : Ring) (junk : Nat → Byte) (mem : ByteMem) (event len : Nat)
    (tmp : List Byte) : List Byte × List Byte :=
  if event + len > ring.endp then
    let dst := wrapEvent ring junk mem event len tmp
    (dst.take len, dst)
  else (mem.bytes event len, tmp)

/-! ## All events -/

/-- `dt_consume_one`; `probe` stands for `dt_consume_one_probe`. A sample has its size, a word of
padding, and then the data, all of which are to fill the event. -/
def dtConsumeOne {σ : Type*} (probe : σ → List Byte → Nat → σ × Status) (s : σ) (buf : List Byte) :
    σ × Status :=
  let hdr := ByteMem.ofBytes buf
  if hdr.u32 0 = 9 then
    if 8 > hdr.u16 6 then (s, .error)
    else if 8 + 4 + hdr.u32 8 ≠ hdr.u16 6 then (s, .error)
    else probe s (buf.drop 16) ((hdr.u32 8 + 2 ^ 32 - 4) % 2 ^ 32)
  else if hdr.u32 0 = 2 then (s, .okay)
  else (s, .error)

/-- `tmp` is shared by all buffers. -/
structure RingState where
  dataTail : Nat
  lastHead : Nat
  tmp : List Byte

/-- The head when it is read, and the memory at that time: what is between the tail and the head
stays as it is until the tail is written. -/
structure Read where
  head : Nat
  mem : ByteMem

variable {σ : Type*}

/-- The inner loop, from `tail`; `one` stands for `dt_consume_one`, with all state that it and the
callbacks have. The loop ends when the tail is the head, so it has fuel. -/
def consumeEvents (ring : Ring) (junk : Nat → Byte) (one : σ → List Byte → σ × Status)
    (mem : ByteMem) (head : Nat) :
    Nat → Nat → List Byte → σ → Option (Nat × List Byte × σ × Status)
  | 0, _, _, _ => none
  | fuel + 1, tail, tmp, s =>
    let event := ring.event tail
    let r := takeEvent ring junk mem event (hdrSize mem event) tmp
    match one s r.1 with
    | (s', .okay) =>
      let tail := tail + hdrSize mem event
      if tail ≠ head then consumeEvents ring junk one mem head fuel tail r.2 s'
      else some (tail, r.2, s', .okay)
    | (s', st) => some (tail, r.2, s', st)

/-- While peeking, the head is the one the first pass has read. -/
def headOf (peek : Peek) (lastHead : Nat) (r : Read) : Nat :=
  if peek = .again ∨ peek = .finish then lastHead else r.head

/-- `dt_consume_cpu` after its check for drops. The list has what is read in turn; when it is at its
end, the head is where the tail is. -/
def dtConsumeCpu (ring : Ring) (junk : Nat → Byte) (one : σ → List Byte → σ × Status) (peek : Peek)
    (fuel : Nat) : List Read → RingState → σ → Option (RingState × σ × Status)
  | [], rs, s => some (rs, s, .okay)
  | r :: reads, rs, s =>
    let head := headOf peek rs.lastHead r
    let rs := { rs with lastHead := head }
    if head = rs.dataTail then some (rs, s, .okay)
    else
      match consumeEvents ring junk one r.mem head fuel rs.dataTail rs.tmp s with
      | none => none
      | some (tail, tmp, s', .okay) =>
        let rs := { rs with
          tmp := tmp
          dataTail := if peek = .no ∨ peek = .finish then tail else rs.dataTail }
        if peek = .no then dtConsumeCpu ring junk one peek fuel reads rs s'
        else some (rs, s', .okay)
      | some (_, tmp, s', .done) => some ({ rs with tmp := tmp }, s', .okay)
      | some (_, tmp, s', .error) => some ({ rs with tmp := tmp }, s', .error)

/-! ## What is passed on -/

/-- The size that the header of an event has in it. -/
def sizeField (event : List Byte) : Nat := event.getD 6 0 + 2 ^ 8 * event.getD 7 0

/-- A well-formed sequence of events between a tail and a head. -/
inductive Events (ring : Ring) (mem : ByteMem) (head : Nat) : Nat → List (List Byte) → Prop
  | nil : Events ring mem head head []
  | cons {tail size : Nat} {events : List (List Byte)}
    (hsize : sizeField (ring.cyclic mem tail size) = size) (hpos : 0 < size) (haligned : 8 ∣ size)
    (hhead : tail + size ≤ head) (hrest : Events ring mem head (tail + size) events) :
    Events ring mem head tail (ring.cyclic mem tail size :: events)

/-- The events one after the other, until one of the calls asks to stop. -/
def feed (one : σ → List Byte → σ × Status) : σ → List (List Byte) → σ × Status
  | s, [] => (s, .okay)
  | s, event :: events =>
    match one s event with
    | (s', .okay) => feed one s' events
    | (s', st) => (s', st)

theorem feed_append (one : σ → List Byte → σ × Status) (s : σ) (events events' : List (List Byte)) :
    feed one s (events ++ events') =
      if (feed one s events).2 = .okay then feed one (feed one s events).1 events'
      else feed one s events := by
  induction events generalizing s with
  | nil => rfl
  | cons event events ih =>
    rw [cons_append, feed, feed]
    rcases hone : one s event with ⟨s', st⟩
    cases st with
    | okay => exact ih s'
    | done => rfl
    | error => rfl

section
variable {ring : Ring} {mem : ByteMem} {tail size : Nat}

theorem Ring.dataSize_pos (ring : Ring) : 0 < ring.dataSize := Nat.two_pow_pos ring.bits

@[simp] theorem Ring.length_cyclic : (ring.cyclic mem tail size).length = size := by
  simp [Ring.cyclic]

/-- A place and what follows it, up to one time around. -/
theorem mod_add {d i : Nat} (hi : i ≤ d) (hd : 0 < d) :
    (tail + i) % d = if tail % d + i < d then tail % d + i else tail % d + i - d := by
  have hlt := Nat.mod_lt tail hd
  rw [Nat.add_mod]
  rcases Nat.eq_or_lt_of_le hi with rfl | hi
  · rw [Nat.mod_self, Nat.add_zero, Nat.mod_eq_of_lt hlt, if_neg (by omega), Nat.add_sub_cancel]
  · rw [Nat.mod_eq_of_lt hi]
    split
    · next h => exact mod_eq_of_lt h
    · next h => rw [mod_eq_sub_mod (by omega), mod_eq_of_lt (by omega)]

/-- **An event is passed on as its bytes are read around the end of the buffer**, whatever the side
buffer holds. -/
theorem event_eq_cyclic (junk : Nat → Byte) (tmp : List Byte) (hsize : size ≤ ring.dataSize) :
    (takeEvent ring junk mem (ring.event tail) size tmp).1 = ring.cyclic mem tail size := by
  have hfits := ring.fits
  have hpos := ring.dataSize_pos
  have hoff := mod_lt tail hpos
  have hdata : ring.dataSize = 2 ^ ring.bits := rfl
  -- before the end of the buffer, positions and addresses go along
  have hpart : ∀ n, n ≤ size → tail % ring.dataSize + n ≤ ring.dataSize →
      mem.bytes (ring.event tail) n = ring.cyclic mem tail n := by
    intro n hn hend
    refine map_congr_left fun i hi => congrArg mem ?_
    have hi := mem_range.mp hi
    rw [mod_add (by omega) hpos, if_pos (by omega), Ring.event, mod_eq_of_lt (by omega),
      add_assoc]
  unfold takeEvent
  split
  · next hwrap =>
    have hwrap : ring.dataSize ≤ tail % ring.dataSize + size := by
      rw [Ring.endp, Ring.event] at hwrap
      omega
    have hnum : ring.endp - ring.event tail + 1 = ring.dataSize - tail % ring.dataSize := by
      rw [Ring.endp, Ring.event]
      omega
    dsimp only [wrapEvent]
    rw [hnum]
    generalize (if tmp.length < size then grow junk tmp size else tmp) = dst
    generalize hn : ring.dataSize - tail % ring.dataSize = num
    have hnsize : num ≤ size := by omega
    -- the second piece starts at the first byte of the buffer
    have hrest : mem.bytes ring.base (size - num) =
        (List.range (size - num)).map fun i => mem (ring.base + (tail + (num + i)) % ring.dataSize) := by
      refine map_congr_left fun i hi => congrArg mem ?_
      have hi := mem_range.mp hi
      rw [mod_add (by omega) hpos, if_neg (by omega), mod_eq_of_lt (by omega)]
      omega
    have hcopy : (memcpy (memcpy dst 0 (mem.bytes (ring.event tail) num)) num
        (mem.bytes ring.base (size - num))).take size =
        mem.bytes (ring.event tail) num ++ mem.bytes ring.base (size - num) := by
      simp only [memcpy, take_zero, nil_append, zero_add, ByteMem.length_bytes]
      have hfirst : (mem.bytes (ring.event tail) num ++ dst.drop num).take num =
          mem.bytes (ring.event tail) num := take_left' (ByteMem.length_bytes _ _)
      rw [hfirst]
      apply take_left'
      rw [length_append, ByteMem.length_bytes, ByteMem.length_bytes]
      omega
    rw [hcopy, hpart num hnsize (by omega), hrest, Ring.cyclic, Ring.cyclic]
    conv_rhs => rw [show size = num + (size - num) by omega]
    rw [range_add, map_append, map_map]
    rfl
  · next hno =>
    rw [Ring.endp, Ring.event] at hno
    exact hpart size le_rfl (by omega)

/-- The header of an event does not go over the end of the buffer. -/
theorem hdrSize_event (htail : 8 ∣ tail) (haligned : 8 ∣ size) (hpos : 0 < size)
    (hsize : size ≤ ring.dataSize) :
    hdrSize mem (ring.event tail) = sizeField (ring.cyclic mem tail size) := by
  have hfits := ring.fits
  have hdata : ring.dataSize = 2 ^ ring.bits := rfl
  have hoff := mod_lt tail ring.dataSize_pos
  -- a power of two that is at least, and so is the place of the event
  have hbits : 3 ≤ ring.bits := by
    have hlt : 2 ^ 2 < 2 ^ ring.bits := by omega
    exact (Nat.pow_lt_pow_iff_right (by decide)).mp hlt
  have hdvd : 8 ∣ ring.dataSize := Nat.pow_dvd_pow 2 hbits
  have hplace : 8 ∣ tail % ring.dataSize := (dvd_mod_iff hdvd).mpr htail
  have hbyte : ∀ i < 8, mem.u8 (ring.event tail + i) = (ring.cyclic mem tail size).getD i 0 := by
    intro i hi
    have hin : i < (ring.cyclic mem tail size).length := by rw [Ring.length_cyclic]; omega
    rw [getD_eq_getElem _ _ hin, ByteMem.u8, Ring.event, mod_eq_of_lt (by omega)]
    simp only [Ring.cyclic, getElem_map, getElem_range]
    rw [mod_add (by omega) ring.dataSize_pos, if_pos (by omega), add_assoc]
  rw [hdrSize, ByteMem.u16, hbyte 6 (by decide), hbyte 7 (by decide)]
  rfl

end

/-! ## The loops -/

section
variable {ring : Ring} (one : σ → List Byte → σ × Status) (junk : Nat → Byte)

/-- What `dt_consume_cpu` returns when a call asks to stop. -/
def ending : Status → Status
  | .done => .okay
  | st => st

/-- **The inner loop** passes all events on, and ends with the tail at the head. -/
theorem consumeEvents_feeds {mem : ByteMem} {head tail : Nat} {events : List (List Byte)}
    (h : Events ring mem head tail events) (htail : 8 ∣ tail) (hne : tail ≠ head)
    (hroom : head ≤ tail + ring.dataSize) {fuel : Nat} (hfuel : events.length ≤ fuel)
    (tmp : List Byte) (s : σ) :
    ∃ tail' tmp', consumeEvents ring junk one mem head fuel tail tmp s =
        some (tail', tmp', feed one s events) ∧
      ((feed one s events).2 = .okay → tail' = head) := by
  induction h generalizing fuel tmp s with
  | nil => exact absurd rfl hne
  | @cons tail size events hsize hpos haligned hhead hrest ih =>
    obtain ⟨fuel, rfl⟩ : ∃ n, fuel = n + 1 := ⟨fuel - 1, by simp at hfuel; omega⟩
    have hle : size ≤ ring.dataSize := by omega
    have hlen : hdrSize mem (ring.event tail) = size :=
      (hdrSize_event htail haligned hpos hle).trans hsize
    have hevent : (takeEvent ring junk mem (ring.event tail) size tmp).1 =
        ring.cyclic mem tail size := event_eq_cyclic junk tmp hle
    rw [consumeEvents, feed]
    simp only [hlen, hevent]
    rcases hone : one s (ring.cyclic mem tail size) with ⟨s', st⟩
    cases st with
    | done | error => exact ⟨_, _, rfl, fun h => by cases h⟩
    | okay =>
      by_cases hend : tail + size = head
      · -- no event is left
        have hnil : events = [] := by
          cases hrest with
          | nil => rfl
          | cons _ hpos _ hhead => omega
        subst hnil
        simp only [hend, ne_eq]
        exact ⟨_, _, rfl, fun _ => rfl⟩
      · simp only [ne_eq, hend]
        exact ih ((Nat.dvd_add_iff_right htail).mp haligned) hend (by omega) (by simpa using hfuel)
          _ s'

theorem Events.dvd_head {mem : ByteMem} {head tail : Nat} {events : List (List Byte)}
    (h : Events ring mem head tail events) (htail : 8 ∣ tail) : 8 ∣ head := by
  induction h with
  | nil => exact htail
  | cons _ _ haligned _ _ ih => exact ih ((Nat.dvd_add_iff_right htail).mp haligned)

/-- What is read in turn, with the events in it and the head in the end. With peeking there is one
read only. -/
inductive Supplied (ring : Ring) (peek : Peek) :
    Nat → Nat → List Read → List (List Byte) → Nat → Prop
  | stop {lastHead tail : Nat} : Supplied ring peek lastHead tail [] [] tail
  | same {lastHead : Nat} {r : Read} {reads : List Read} :
    Supplied ring peek lastHead (headOf peek lastHead r) (r :: reads) [] (headOf peek lastHead r)
  | peeked {lastHead tail : Nat} {r : Read} {reads : List Read} {events : List (List Byte)}
    (hpeek : peek ≠ .no) (hlt : tail < headOf peek lastHead r)
    (hroom : headOf peek lastHead r ≤ tail + ring.dataSize)
    (hevents : Events ring r.mem (headOf peek lastHead r) tail events) :
    Supplied ring peek lastHead tail (r :: reads) events (headOf peek lastHead r)
  | more {lastHead tail : Nat} {r : Read} {reads : List Read} {events events' : List (List Byte)}
    {head : Nat} (hpeek : peek = .no) (hlt : tail < headOf peek lastHead r)
    (hroom : headOf peek lastHead r ≤ tail + ring.dataSize)
    (hevents : Events ring r.mem (headOf peek lastHead r) tail events)
    (hrest : Supplied ring peek (headOf peek lastHead r) (headOf peek lastHead r) reads events' head) :
    Supplied ring peek lastHead tail (r :: reads) (events ++ events') head

/-- **All events are passed on**, each once and in order, as their bytes are read around the end of
the buffer, and the tail is then the head that was read last, unless the buffer is to be left as it
is. -/
theorem dtConsumeCpu_feeds {peek : Peek} {rs : RingState} {reads : List Read}
    {events : List (List Byte)} {head : Nat} (htail : 8 ∣ rs.dataTail)
    (h : Supplied ring peek rs.lastHead rs.dataTail reads events head) {fuel : Nat}
    (hfuel : events.length ≤ fuel) (s : σ) :
    ∃ rs', dtConsumeCpu ring junk one peek fuel reads rs s =
        some (rs', (feed one s events).1, ending (feed one s events).2) ∧
      ((feed one s events).2 = .okay →
        rs'.dataTail = if peek = .no ∨ peek = .finish then head else rs.dataTail) := by
  obtain ⟨tail, lastHead, tmp⟩ := rs
  dsimp only at h
  induction h generalizing tmp s with
  | stop => exact ⟨_, rfl, fun _ => (ite_self _).symm⟩
  | @same lastHead r reads =>
    rw [dtConsumeCpu]
    simp only [if_true]
    exact ⟨_, rfl, fun _ => (ite_self _).symm⟩
  | @peeked lastHead tail r reads events hpeek hlt hroom hevents =>
    obtain ⟨tail', tmp', heq, hend⟩ :=
      consumeEvents_feeds one junk hevents htail hlt.ne hroom hfuel tmp s
    rw [dtConsumeCpu]
    simp only [hlt.ne', heq]
    rcases hfeed : feed one s events with ⟨s', st⟩
    rw [hfeed] at hend
    cases st with
    | done | error => exact ⟨_, rfl, fun h => by cases h⟩
    | okay =>
      simp only [hpeek]
      refine ⟨_, rfl, fun _ => ?_⟩
      rw [hend rfl]
  | @more lastHead tail r reads events events' head hpeek hlt hroom hevents hrest ih =>
    subst hpeek
    have hfuel' : events.length ≤ fuel ∧ events'.length ≤ fuel := by
      rw [length_append] at hfuel
      omega
    obtain ⟨tail', tmp', heq, hend⟩ :=
      consumeEvents_feeds one junk hevents htail hlt.ne hroom hfuel'.1 tmp s
    rw [dtConsumeCpu, feed_append]
    simp only [hlt.ne', heq]
    rcases hfeed : feed one s events with ⟨s', st⟩
    rw [hfeed] at hend
    cases st with
    | done | error => exact ⟨_, rfl, fun h => by cases h⟩
    | okay =>
      -- the tail has been written, and the next head is read
      simp only [hend rfl] at ⊢
      exact ih hfuel'.2 s' tmp' (hevents.dvd_head htail)

end

/-! ## Down to the buffers of clauses -/

/-- A sample that fills its event. -/
structure IsSample (event : List Byte) : Prop where
  type : (ByteMem.ofBytes event).u32 0 = 9
  size : 12 + (ByteMem.ofBytes event).u32 8 = (ByteMem.ofBytes event).u16 6

section

open Speculation

variable {α : Type*} (cb : Callbacks α) (specsize : Nat) (peek : Peek)
  (decode : List Byte → Buf α)

/-- `dt_consume_one_probe` on the bytes of a clause's buffer. -/
def probeBytes (s : Consumer α × SpecMap) (data : List Byte) (_ : Nat) :
    (Consumer α × SpecMap) × Status :=
  let r := dtConsumeOneProbe cb specsize peek (decode data) s.1 s.2
  ((r.1, r.2.1), r.2.2)

/-- **Samples in the ring are the buffers of the consumer's pass.** -/
theorem feed_samples {events : List (List Byte)} (h : ∀ event ∈ events, IsSample event)
    (s : Consumer α × SpecMap) :
    feed (dtConsumeOne (probeBytes cb specsize peek decode)) s events =
      let r := consumeRing cb specsize peek
        (events.map fun event => decode (event.drop 16)) s.1 s.2
      ((r.1, r.2.1), r.2.2) := by
  induction events generalizing s with
  | nil => rfl
  | cons event events ih =>
    have hevent := h event (by simp)
    have hone : dtConsumeOne (probeBytes cb specsize peek decode) s event =
        probeBytes cb specsize peek decode s (event.drop 16)
          (((ByteMem.ofBytes event).u32 8 + 2 ^ 32 - 4) % 2 ^ 32) := by
      have hsize := hevent.size
      simp only [dtConsumeOne, hevent.type, if_true]
      rw [if_neg (by omega), if_neg (by omega)]
    rw [feed, hone, map_cons, consumeRing, probeBytes]
    rcases dtConsumeOneProbe cb specsize peek (decode (event.drop 16)) s.1 s.2 with
      ⟨c', specs', st⟩
    cases st with
    | okay => exact ih (fun x hx => h x (by simp [hx])) (c', specs')
    | done => rfl
    | error => rfl

/-- **From the ring to the buffers**: when all events are samples, the inner loop is the consumer's
pass over the buffers that are in them, in their order, wherever they lie in the ring. -/
theorem consumeEvents_samples {ring : Ring} {mem : ByteMem} {head tail : Nat}
    {events : List (List Byte)} (hevents : Events ring mem head tail events)
    (h : ∀ event ∈ events, IsSample event) (htail : 8 ∣ tail) (hne : tail ≠ head)
    (hroom : head ≤ tail + ring.dataSize) {fuel : Nat} (hfuel : events.length ≤ fuel)
    (junk : Nat → Byte) (tmp : List Byte) (s : Consumer α × SpecMap) :
    let r := consumeRing cb specsize peek
      (events.map fun event => decode (event.drop 16)) s.1 s.2
    ∃ tail' tmp', consumeEvents ring junk (dtConsumeOne (probeBytes cb specsize peek decode)) mem
      head fuel tail tmp s = some (tail', tmp', (r.1, r.2.1), r.2.2) ∧
        (r.2.2 = .okay → tail' = head) := by
  obtain ⟨tail', tmp', hrun⟩ := consumeEvents_feeds
    (dtConsumeOne (probeBytes cb specsize peek decode)) junk hevents htail hne hroom hfuel tmp s
  rw [feed_samples cb specsize peek decode h] at hrun
  exact ⟨tail', tmp', hrun⟩

end

/-! ### An event around the end -/

/-- A buffer of 32 bytes at address 4096 with events of 16 bytes at positions 8 and 24, the second
of which goes over the end. -/
def smallRing : Ring := ⟨4096, 5, by decide⟩

def smallMem : ByteMem := fun a =>
  if a = 4096 + 8 + 6 ∨ a = 4096 + 24 + 6 then 16 else if a = 4096 + 7 ∨ a = 4096 + 31 then 0 else
    Fin.ofNat 256 (if a % 8 = 7 then 0 else a)

def smallEvents : List (List Byte) :=
  [smallRing.cyclic smallMem 8 16, smallRing.cyclic smallMem 24 16]

/-- Both are passed on whole, and the tail is at 40. -/
theorem straddling_event_passed_on :
    ∃ rs', dtConsumeCpu smallRing (fun _ => 0) (fun s event => (s ++ [event], .okay)) .no 2
        [⟨40, smallMem⟩] ⟨8, 0, []⟩ [] = some (rs', smallEvents, .okay) ∧ rs'.dataTail = 40 := by
  have hevents : Events smallRing smallMem 40 8 smallEvents :=
    .cons (by decide) (by decide) (by decide) (by decide)
      (.cons (by decide) (by decide) (by decide) (by decide) .nil)
  have hsupplied : Supplied smallRing .no 0 8 [⟨40, smallMem⟩] (smallEvents ++ []) 40 :=
    .more rfl (by decide) (by decide) hevents .stop
  obtain ⟨rs', heq, htail⟩ := dtConsumeCpu_feeds (fun s event => (s ++ [event], Status.okay))
    (fun _ => 0) (show 8 ∣ (RingState.mk 8 0 []).dataTail by decide) hsupplied
    (show (smallEvents ++ []).length ≤ 2 by decide) []
  exact ⟨rs', heq, htail rfl⟩

/-- A buffer of 64 bytes with samples of eight bytes at positions 32 and 56, the second of which goes
over the end. -/
def sampleRing : Ring := ⟨4096, 6, by decide⟩

def sampleBytes : List Byte :=
  [12, 0, 0, 0, 0, 0, 0, 0, 8, 7, 6, 5, 4, 3, 2, 1] ++ List.replicate 16 0 ++
    [9, 0, 0, 0, 0, 0, 24, 0, 12, 0, 0, 0, 0, 0, 0, 0, 1, 2, 3, 4, 5, 6, 7, 8] ++
    [9, 0, 0, 0, 0, 0, 24, 0]

def sampleMem : ByteMem := fun a => sampleBytes.getD (a - 4096) 0

/-- The data of both is delivered, in order, and the tail is at 80. -/
theorem sample_from_ring : ∃ tmp c specs, consumeEvents sampleRing (fun _ => 0)
      (dtConsumeOne (probeBytes ⟨fun _ => .this, fun _ _ => .this, fun _ => true⟩ 8 .no
        fun data => ⟨0, ⟨0, 0⟩, 8, [.record], data, false⟩)) sampleMem 80 2 32 []
      (⟨fun _ => none, [], 0, []⟩, fun _ => none) = some (80, tmp, (c, specs), .okay) ∧
    c.delivered.map (·.data) = [[1, 2, 3, 4, 5, 6, 7, 8], [8, 7, 6, 5, 4, 3, 2, 1]] := by
  have hevents : Events sampleRing sampleMem 80 32
      [sampleRing.cyclic sampleMem 32 24, sampleRing.cyclic sampleMem 56 24] :=
    .cons (by decide) (by decide) (by decide) (by decide)
      (.cons (by decide) (by decide) (by decide) (by decide) .nil)
  have hsamples : ∀ event ∈ [sampleRing.cyclic sampleMem 32 24, sampleRing.cyclic sampleMem 56 24],
      IsSample event :=
    forall_mem_cons.mpr ⟨⟨by decide, by decide⟩,
      forall_mem_singleton.mpr ⟨by decide, by decide⟩⟩
  obtain ⟨_, tmp, heq, htail⟩ :=
    consumeEvents_samples ⟨fun _ => .this, fun _ _ => .this, fun _ => true⟩ 8 .no
      (fun data => ⟨0, ⟨0, 0⟩, 8, [.record], data, false⟩) hevents hsamples (by decide) (by decide)
      (by decide) le_rfl (fun _ => 0) [] (⟨fun _ => none, [], 0, []⟩, fun _ => none)
  obtain rfl := htail rfl
  exact ⟨tmp, _, _, heq, by decide⟩

end DTrace.Consume
