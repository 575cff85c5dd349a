import DTrace.Dof.Slurp

/-!
# dtprobed: getting DOF from a client

The daemon cannot read the memory of the client that calls `ioctl()`. Every call of `helperIoctl`
asks for some of it and is repeated with what it asked for: first for the `dof_helper_t`, then for
the header of the DOF, then for all of the DOF, again with its header, in chunks if it is large.

`transfer_eq` says how that ends for any client, which may change its memory between two fetches.

* `dof_delivered_iff`: the memory of a client that does not change is delivered in full unless the
  last chunk is shorter than a header, which is mistaken for DOF that is too small.
* `sent_eq_fetched_iff`: what is sent to the parser is as long as what was fetched if and only if
  the client did not change the load size between the two fetches of the header.
-/

namespace DTrace.Dtprobed

open Dof List Function Nat

/-! ## The state machine -/

abbrev Bytes := List (Fin 256)

inductive State
  | start
  | hdr
  | dofhdr
  | dofchunk
  | dof
  deriving DecidableEq, Repr

/-- `dtprobed_userdata_t` -/
structure Userdata where
  state : State
  dh : Bytes
  dofHdr : Bytes
  nextChunk : Nat
  buf : Option Bytes
  deriving DecidableEq, Repr

/-- `sizeof(dof_helper_t)` -/
def helperSize : Nat := 80

/-- `dofhp_dof` -/
def dofhpDof (dh : Bytes) : Nat := (ByteMem.ofBytes dh).u64 72

def dofMaxsz : Nat := 512 * 1024 * 1024

def dofChunksz : Nat := 64 * 1024

inductive Cmd
  | adddof
  | remove
  | other
  deriving DecidableEq, Repr

/-- What a call ends with: the bytes it asks for, the DOF that it hands to `process_dof`, or a
reply. -/
inductive Reply
  | retry (base len : Nat)
  | process (dh buf : Bytes)
  | ok
  | err (msg : String)
  deriving DecidableEq, Repr

/-- `fuse_err` -/
def Userdata.fail (u : Userdata) (msg : String) : Userdata × Reply :=
  ({ u with buf := none, state := .start }, .err msg)

/-- The DOF is in `userdata->buf`, or else was fetched in one go. -/
def Userdata.process (u : Userdata) (inBuf : Bytes) : Userdata × Reply :=
  ({ u with buf := none, state := .start }, .process u.dh (u.buf.getD inBuf))

/-- `memcpy(dst + at, src, src.length)` -/
def memcpy (dst : Bytes) (start : Nat) (src : Bytes) : Bytes :=
  dst.take start ++ src ++ dst.drop (start + src.length)

/-- The states `DTP_IOCTL_DOFHDR` and `DTP_IOCTL_DOFCHUNK`. -/
def fetchDof (malloc : Nat → Option Bytes) (u : Userdata) (inBuf : Bytes) : Userdata × Reply :=
  let base := dofhpDof u.dh
  let loadsz := dofhLoadsz (ByteMem.ofBytes u.dofHdr)
  if loadsz > dofChunksz then
    if u.state = .dofhdr then
      match malloc loadsz with
      | none => u.fail "out of memory allocating DOF"
      | some buf => ({ u with buf := some buf, state := .dofchunk }, .retry base dofChunksz)
    else
      let diff := (loadsz + 2 ^ 64 - u.nextChunk) % 2 ^ 64
      -- as a `ssize_t`
      let remaining := if diff < 2 ^ 63 then diff else 0
      let toCopy := min inBuf.length remaining
      let u := { u with
        buf := u.buf.map fun buf => memcpy buf u.nextChunk (inBuf.take toCopy)
        nextChunk := u.nextChunk + toCopy }
      let remaining := remaining - toCopy
      if remaining = 0 then { u with state := .dof }.process inBuf
      else ({ u with state := .dofchunk },
        .retry (base + u.nextChunk) (min dofChunksz remaining))
  else ({ u with state := .dof }, .retry base loadsz)

def helperIoctl (malloc : Nat → Option Bytes) (cmd : Cmd) (arg : Nat) (u : Userdata)
    (inBuf : Bytes) : Userdata × Reply :=
  match cmd with
  | .remove => (u, .ok)
  | .other => u.fail "invalid ioctl"
  | .adddof =>
    if u.state = .start then
      ({ u with buf := none, nextChunk := 0, state := .hdr }, .retry arg helperSize)
    else if u.state = .hdr then
      if inBuf.length ≠ helperSize then u.fail "helper size incorrect"
      else
        ({ u with dh := inBuf, state := .dofhdr }, .retry (dofhpDof inBuf) hdrSize)
    else if inBuf.length < hdrSize then u.fail "DOF too small"
    else if u.state = .dofhdr then
      if inBuf.length > hdrSize then u.fail "DOF header size incorrect"
      else fetchDof malloc { u with dofHdr := inBuf } inBuf
    else if u.state = .dofchunk then fetchDof malloc u inBuf
    else u.process inBuf

/-! ## An ioctl of a client -/

/-- The state of the daemon, the bytes for the next call and what was asked for so far. -/
structure Session where
  user : Userdata
  inBuf : Bytes
  iovs : List (Nat × Nat)
  deriving DecidableEq, Repr

inductive Transfer
  | running (s : Session)
  | processed (dh buf : Bytes) (iovs : List (Nat × Nat))
  | failed (msg : String)
  | replied
  deriving DecidableEq, Repr

/-- `client k` is the memory of the client at fetch `k`. -/
def call (malloc : Nat → Option Bytes) (arg : Nat) (client : Nat → ByteMem) : Transfer → Transfer
  | .running s =>
    match helperIoctl malloc .adddof arg s.user s.inBuf with
    | (u, .retry base len) =>
      .running ⟨u, (client s.iovs.length).bytes base len, s.iovs ++ [(base, len)]⟩
    | (_, .process dh buf) => .processed dh buf s.iovs
    | (_, .err msg) => .failed msg
    | (_, .ok) => .replied
  | t => t

/-- After `n` calls. -/
def transfer (malloc : Nat → Option Bytes) (arg : Nat) (client : Nat → ByteMem) (u : Userdata)
    (n : Nat) : Transfer :=
  (call malloc arg client)^[n] (.running ⟨u, [], []⟩)

/-! ## How it ends -/

/-- A block of the size asked for. There is none of 8 EiB or more. -/
def IsMalloc (malloc : Nat → Option Bytes) : Prop :=
  ∀ n buf, malloc n = some buf → buf.length = n ∧ n < 2 ^ 63

section

variable (arg : Nat) (client : Nat → ByteMem)

/-- The `dof_helper_t` of the client. -/
def helperOf : Bytes := (client 0).bytes arg helperSize

def dofAddr : Nat := dofhpDof (helperOf arg client)

/-- The header as it is fetched first. -/
def hdrOf : Bytes := (client 1).bytes (dofAddr arg client) hdrSize

def loadszOf : Nat := dofhLoadsz (ByteMem.ofBytes (hdrOf arg client))

/-- The length of chunk `i`. -/
def chunkLen (i : Nat) : Nat := min dofChunksz (loadszOf arg client - i * dofChunksz)

def chunk (i : Nat) : Bytes :=
  (client (i + 2)).bytes (dofAddr arg client + i * dofChunksz) (chunkLen arg client i)

/-- The first `n` chunks. -/
def chunks (n : Nat) : Bytes := (List.range n).flatMap (chunk arg client)

/-- What is asked for until there are `n` chunks. -/
def iovsOf (n : Nat) : List (Nat × Nat) :=
  (arg, helperSize) :: (dofAddr arg client, hdrSize) ::
    (List.range n).map fun i => (dofAddr arg client + i * dofChunksz, chunkLen arg client i)

/-- The number of chunks after the first. -/
def lastChunk : Nat := (loadszOf arg client - 1) / dofChunksz

/-- DOF that fits one chunk is fetched as one, without a buffer of its own. -/
def outcome (malloc : Nat → Option Bytes) : Transfer :=
  if loadszOf arg client > dofChunksz ∧ malloc (loadszOf arg client) = none then
    .failed "out of memory allocating DOF"
  else if chunkLen arg client (lastChunk arg client) < hdrSize then .failed "DOF too small"
  else .processed (helperOf arg client) (chunks arg client (lastChunk arg client + 1))
    (iovsOf arg client (lastChunk arg client + 1))

/-- When `c` chunks have been copied to `buf`. -/
def chunkUser (c : Nat) (buf : Bytes) : Userdata where
  state := .dofchunk
  dh := helperOf arg client
  dofHdr := hdrOf arg client
  nextChunk := c * dofChunksz
  buf := some (chunks arg client c ++ buf.drop (c * dofChunksz))

/-- Chunk `c` has been fetched and is to be copied. -/
def chunkState (c : Nat) (buf : Bytes) : Transfer :=
  .running ⟨chunkUser arg client c buf, chunk arg client c, iovsOf arg client (c + 1)⟩

end

variable {malloc : Nat → Option Bytes} {arg : Nat} {client : Nat → ByteMem}

@[simp]
theorem length_chunk (i : Nat) : (chunk arg client i).length = chunkLen arg client i := by
  simp [chunk]

variable (n : Nat) {u : Userdata}

theorem chunks_succ : chunks arg client (n + 1) = chunks arg client n ++ chunk arg client n := by
  simp [chunks, range_succ]

/-- The first chunk comes first. -/
theorem chunks_eq_append : chunks arg client (n + 1) =
    chunk arg client 0 ++ (List.range n).flatMap fun i => chunk arg client (i + 1) := by
  simp [chunks, range_succ_eq_map, flatMap_map]

theorem length_iovsOf : (iovsOf arg client n).length = n + 2 := by simp [iovsOf]

theorem iovsOf_succ : iovsOf arg client (n + 1) =
    iovsOf arg client n ++ [(dofAddr arg client + n * dofChunksz, chunkLen arg client n)] := by
  simp [iovsOf, range_succ]

/-- All chunks before one that is not empty are full. -/
theorem length_chunks {c : Nat} (hc : c * dofChunksz < loadszOf arg client) :
    (chunks arg client c).length = c * dofChunksz := by
  induction c with
  | zero => simp [chunks]
  | succ c ih =>
    rw [add_one_mul] at hc ⊢
    rw [chunks_succ, length_append, length_chunk, chunkLen]
    omega

/-- Copying the next chunk. -/
theorem memcpy_chunk {c : Nat} {buf : Bytes} (hc : c * dofChunksz < loadszOf arg client) :
    memcpy (chunks arg client c ++ buf.drop (c * dofChunksz)) (c * dofChunksz)
        (chunk arg client c) =
      chunks arg client (c + 1) ++ buf.drop (c * dofChunksz + chunkLen arg client c) := by
  have hlen := length_chunks hc
  rw [memcpy, take_append_of_le_length (by omega), take_of_length_le (by omega),
    drop_append, drop_of_length_le (by omega), nil_append, drop_drop, hlen,
    length_chunk, chunks_succ, Nat.add_sub_cancel_left]

section

variable {c : Nat} {buf : Bytes} (hc : c * dofChunksz < loadszOf arg client)
  (hlarge : dofChunksz < loadszOf arg client) (hbuf : buf.length = loadszOf arg client)
  (hsmall : loadszOf arg client < 2 ^ 63)

include hc hlarge hbuf hsmall

/-- Chunk `c` is copied, and either the next one is asked for or the DOF is complete. -/
theorem fetchDof_chunk :
    (fetchDof malloc (chunkUser arg client c buf) (chunk arg client c)) =
      if (c + 1) * dofChunksz < loadszOf arg client then
        (chunkUser arg client (c + 1) buf,
          .retry (dofAddr arg client + (c + 1) * dofChunksz) (chunkLen arg client (c + 1)))
      else ({ chunkUser arg client c buf with
          state := .start
          nextChunk := c * dofChunksz + chunkLen arg client c
          buf := none },
        .process (helperOf arg client) (chunks arg client (c + 1))) := by
  have hdiff : (loadszOf arg client + 2 ^ 64 - c * dofChunksz) % 2 ^ 64 =
      loadszOf arg client - c * dofChunksz := by omega
  have hsigned : loadszOf arg client - c * dofChunksz < 2 ^ 63 := by omega
  have hcopy : min (chunkLen arg client c) (loadszOf arg client - c * dofChunksz) =
      chunkLen arg client c := by
    unfold chunkLen
    omega
  have htake : (chunk arg client c).take (chunkLen arg client c) = chunk arg client c :=
    take_of_length_le (by rw [length_chunk])
  have hstate : ¬(State.dofchunk = .dofhdr) := nofun
  rw [fetchDof, chunkUser]
  dsimp only
  rw [show dofhLoadsz (ByteMem.ofBytes (hdrOf arg client)) = loadszOf arg client from rfl,
    show dofhpDof (helperOf arg client) = dofAddr arg client from rfl, if_pos hlarge,
    if_neg hstate, hdiff, if_pos hsigned, length_chunk, hcopy, htake, Option.map_some,
    memcpy_chunk hc]
  have hlen : chunkLen arg client c = min dofChunksz (loadszOf arg client - c * dofChunksz) := rfl
  rw [add_one_mul] at *
  split
  case isTrue hdone =>
    rw [if_neg (by omega), drop_of_length_le (by omega), append_nil]
    rfl
  case isFalse hmore =>
    have hfull : chunkLen arg client c = dofChunksz := by omega
    rw [if_pos (by omega), hfull, chunkUser, chunkLen, Nat.add_one_mul, Nat.sub_sub]

theorem call_chunkState :
    call malloc arg client (chunkState arg client c buf) =
      if chunkLen arg client c < hdrSize then .failed "DOF too small"
      else if (c + 1) * dofChunksz < loadszOf arg client then chunkState arg client (c + 1) buf
      else .processed (helperOf arg client) (chunks arg client (c + 1))
        (iovsOf arg client (c + 1)) := by
  have hioctl : helperIoctl malloc .adddof arg (chunkUser arg client c buf) (chunk arg client c) =
      if chunkLen arg client c < hdrSize then (chunkUser arg client c buf).fail "DOF too small"
      else fetchDof malloc (chunkUser arg client c buf) (chunk arg client c) := by
    simp [helperIoctl, chunkUser]
  rw [chunkState, call, hioctl]
  by_cases hshort : chunkLen arg client c < hdrSize
  case pos =>
    rw [if_pos hshort, if_pos hshort]
    rfl
  case neg =>
    rw [if_neg hshort, if_neg hshort, fetchDof_chunk hc hlarge hbuf hsmall]
    by_cases hmore : (c + 1) * dofChunksz < loadszOf arg client
    case pos =>
      rw [if_pos hmore, if_pos hmore]
      dsimp only
      rw [length_iovsOf, chunkState, iovsOf_succ (c + 1), chunk]
    case neg => rw [if_neg hmore, if_neg hmore]

end

/-- Chunks are fetched until the last one. -/
theorem iterate_chunkState {buf : Bytes} (hlarge : dofChunksz < loadszOf arg client)
    (hbuf : buf.length = loadszOf arg client) (hsmall : loadszOf arg client < 2 ^ 63) {c : Nat}
    (hc : c * dofChunksz < loadszOf arg client) :
    (call malloc arg client)^[c] (chunkState arg client 0 buf) = chunkState arg client c buf := by
  induction c with
  | zero => rfl
  | succ c ih =>
    have hprev : c * dofChunksz + dofChunksz < loadszOf arg client := by rwa [← add_one_mul]
    have hfull : ¬chunkLen arg client c < hdrSize := by
      unfold chunkLen dofChunksz hdrSize at *
      omega
    rw [iterate_succ_apply', ih (by omega),
      call_chunkState (by omega) hlarge hbuf hsmall, if_neg hfull, if_pos hc]

/-- The first three calls. -/
theorem transfer_three (hu : u.state = .start) :
    transfer malloc arg client u 3 =
      if loadszOf arg client > dofChunksz then
        match malloc (loadszOf arg client) with
        | none => .failed "out of memory allocating DOF"
        | some buf => chunkState arg client 0 buf
      else
        .running ⟨⟨.dof, helperOf arg client, hdrOf arg client, 0, none⟩, chunk arg client 0,
          iovsOf arg client 1⟩ := by
  have h1 : transfer malloc arg client u 1 = .running
      ⟨⟨.hdr, u.dh, u.dofHdr, 0, none⟩, helperOf arg client, [(arg, helperSize)]⟩ := by
    simp only [transfer, iterate_one, call, helperIoctl, hu, if_true]
    rfl
  have h2 : transfer malloc arg client u 2 = .running
      ⟨⟨.dofhdr, helperOf arg client, u.dofHdr, 0, none⟩, hdrOf arg client, iovsOf arg client 0⟩ := by
    rw [transfer, iterate_succ_apply', ← transfer, h1]
    rfl
  have hhdr : (hdrOf arg client).length = hdrSize := ByteMem.length_bytes _ _
  rw [transfer, iterate_succ_apply', ← transfer, h2]
  simp only [call, helperIoctl, hhdr, reduceCtorEq, if_false, if_true, lt_irrefl, gt_iff_lt,
    fetchDof]
  rw [show dofhLoadsz (ByteMem.ofBytes (hdrOf arg client)) = loadszOf arg client from rfl]
  by_cases hlarge : dofChunksz < loadszOf arg client
  case pos =>
    have hfirst : chunkLen arg client 0 = dofChunksz := by
      unfold chunkLen
      omega
    rw [if_pos hlarge, if_pos hlarge]
    cases malloc (loadszOf arg client) with
    | none => rfl
    | some buf => simp [chunkState, chunkUser, chunk, chunks, iovsOf, hfirst, dofAddr]
  case neg =>
    have hone : chunkLen arg client 0 = loadszOf arg client := by
      unfold chunkLen
      omega
    rw [if_neg hlarge, if_neg hlarge]
    simp [chunk, iovsOf, hone, dofAddr]

/-- The last chunk ends with the DOF. -/
theorem lastChunk_spec (hpos : 0 < loadszOf arg client) :
    lastChunk arg client * dofChunksz < loadszOf arg client ∧
      loadszOf arg client ≤ (lastChunk arg client + 1) * dofChunksz := by
  unfold lastChunk dofChunksz
  omega

/-- How the transfer ends, whatever the client does. -/
theorem transfer_eq (hmalloc : IsMalloc malloc) (hu : u.state = .start) :
    ∃ n, transfer malloc arg client u n = outcome arg client malloc := by
  have hthree : transfer malloc arg client u 3 = _ := transfer_three hu
  have hmore : ∀ n, transfer malloc arg client u (n + 3) =
      (call malloc arg client)^[n] (transfer malloc arg client u 3) :=
    fun n => iterate_add_apply _ _ _ _
  by_cases hlarge : dofChunksz < loadszOf arg client
  case pos =>
    rw [if_pos hlarge] at hthree
    cases hbuf : malloc (loadszOf arg client) with
    | none =>
      rw [hbuf] at hthree
      exact ⟨3, by rw [hthree, outcome, if_pos ⟨hlarge, hbuf⟩]⟩
    | some buf =>
      obtain ⟨hlen, hsmall⟩ := hmalloc _ _ hbuf
      obtain ⟨hlast, hend⟩ := lastChunk_spec (lt_of_le_of_lt (zero_le _) hlarge)
      have hoom : ¬(loadszOf arg client > dofChunksz ∧ malloc (loadszOf arg client) = none) := by
        simp [hbuf]
      rw [hbuf] at hthree
      refine ⟨lastChunk arg client + 1 + 3, ?_⟩
      rw [hmore, hthree, iterate_succ_apply']
      dsimp only
      rw [iterate_chunkState hlarge hlen hsmall hlast, call_chunkState hlast hlarge hlen hsmall,
        if_neg (not_lt.mpr hend), outcome, if_neg hoom]
  case neg =>
    have hlast : lastChunk arg client = 0 := by
      unfold lastChunk
      exact div_eq_of_lt (by unfold dofChunksz at *; omega)
    rw [if_neg hlarge] at hthree
    refine ⟨1 + 3, ?_⟩
    rw [hmore, hthree, iterate_one, outcome, if_neg (by simp [hlarge]), hlast, call]
    simp only [helperIoctl, reduceCtorEq, if_false, length_chunk]
    by_cases hshort : chunkLen arg client 0 < hdrSize
    case pos =>
      rw [if_pos hshort, if_pos hshort]
      rfl
    case neg =>
      have hchunks : chunks arg client (0 + 1) = chunk arg client 0 := by
        rw [chunks_succ, show chunks arg client 0 = [] from rfl, nil_append]
      rw [if_neg hshort, if_neg hshort, hchunks]
      dsimp only [Userdata.process, Option.getD_none]

def Transfer.Done : Transfer → Prop
  | .running _ => False
  | _ => True

theorem iterate_call_of_done {t : Transfer} (ht : t.Done) (n : Nat) :
    (call malloc arg client)^[n] t = t := by
  induction n with
  | zero => rfl
  | succ n ih =>
    rw [iterate_succ_apply', ih]
    cases t with
    | running s => exact ht.elim
    | processed _ _ _ => rfl
    | failed _ => rfl
    | replied => rfl

theorem done_outcome : (outcome arg client malloc).Done := by
  unfold outcome
  split
  · trivial
  · split <;> trivial

/-- **A transfer ends**, whatever the client does to its memory meanwhile. -/
theorem transfer_ends (hmalloc : IsMalloc malloc) (hu : u.state = .start) :
    ∃ k, ∀ n, k ≤ n → (transfer malloc arg client u n).Done ∧
      transfer malloc arg client u n = transfer malloc arg client u k := by
  obtain ⟨k, hk⟩ : ∃ k, transfer malloc arg client u k = _ := transfer_eq hmalloc hu
  refine ⟨k, fun n hn => ?_⟩
  have hsame : transfer malloc arg client u n = transfer malloc arg client u k := by
    rw [← Nat.sub_add_cancel hn, transfer, iterate_add_apply, ← transfer, hk,
      iterate_call_of_done done_outcome]
  rw [hsame, hk]
  exact ⟨done_outcome, rfl⟩

/-- It ends in one way only. -/
theorem eq_outcome_of_done (hmalloc : IsMalloc malloc) (hu : u.state = .start) {n : Nat}
    (h : (transfer malloc arg client u n).Done) :
    transfer malloc arg client u n = outcome arg client malloc := by
  obtain ⟨k, hk⟩ : ∃ k, transfer malloc arg client u k = _ := transfer_eq hmalloc hu
  have hn : transfer malloc arg client u (k + n) = transfer malloc arg client u n := by
    rw [transfer, iterate_add_apply, ← transfer, iterate_call_of_done h]
  have hk' : transfer malloc arg client u (n + k) = outcome arg client malloc := by
    rw [transfer, iterate_add_apply, ← transfer, hk, iterate_call_of_done done_outcome]
  rw [← hn, add_comm, hk']

/-! ## What was fetched -/

theorem dofAddr_eq : dofAddr arg client = (client 0).u64 (arg + 72) := by
  have := ByteMem.u64_ofBytes_bytes (m := client 0) (p := arg) (n := helperSize) (i := 72) []
    (by decide) (by decide)
  exact this

theorem loadszOf_eq : loadszOf arg client = (client 1).u64 (dofAddr arg client + 40) := by
  have := ByteMem.u64_ofBytes_bytes (m := client 1) (p := dofAddr arg client) (n := hdrSize)
    (i := 40) [] (by decide) (by decide)
  exact this

/-- The length of the first `n` chunks. -/
theorem sum_chunkLen :
    ((List.range n).map (chunkLen arg client)).sum = min (n * dofChunksz) (loadszOf arg client) := by
  induction n with
  | zero => simp
  | succ n ih =>
    rw [range_succ, map_append, List.sum_append, map_singleton,
      sum_singleton, chunkLen, add_one_mul]
    omega

/-- The addresses that the DOF is fetched from. -/
def addresses (iovs : List (Nat × Nat)) : List Nat :=
  iovs.flatMap fun iov => (List.range iov.2).map (iov.1 + ·)

theorem addresses_append (xs ys : List (Nat × Nat)) :
    addresses (xs ++ ys) = addresses xs ++ addresses ys := flatMap_append

/-- One chunk more. -/
theorem min_succ_mul : min ((n + 1) * dofChunksz) (loadszOf arg client) =
    min (n * dofChunksz) (loadszOf arg client) + chunkLen arg client n := by
  rw [chunkLen, add_one_mul]
  omega

/-- Chunks are fetched from one address after the other. -/
theorem addresses_chunks :
    addresses ((List.range n).map fun i =>
        (dofAddr arg client + i * dofChunksz, chunkLen arg client i)) =
      (List.range (min (n * dofChunksz) (loadszOf arg client))).map (dofAddr arg client + ·) := by
  induction n with
  | zero => simp [addresses]
  | succ n ih =>
    rw [range_succ, map_append, addresses_append, ih, min_succ_mul, range_add, map_append, map_map]
    congr 1
    simp only [addresses, map_cons, map_nil, flatMap_cons, flatMap_nil, append_nil, comp_def]
    -- there is nothing in chunks after the last one
    by_cases hn : n * dofChunksz ≤ loadszOf arg client
    case pos => rw [Nat.min_eq_left hn]; simp only [Nat.add_assoc]
    case neg => rw [chunkLen, Nat.sub_eq_zero_of_le (by omega), Nat.min_zero]; simp

/-- If the memory does not change, the chunks are the DOF. -/
theorem chunks_const {m : ByteMem} :
    chunks arg (fun _ => m) n = m.bytes (dofAddr arg fun _ => m)
      (min (n * dofChunksz) (loadszOf arg fun _ => m)) := by
  induction n with
  | zero => simp [chunks, ByteMem.bytes]
  | succ n ih =>
    rw [chunks_succ, ih, min_succ_mul, ByteMem.bytes_add, chunk]
    congr 1
    by_cases hn : n * dofChunksz ≤ loadszOf arg fun _ => m
    case pos => rw [Nat.min_eq_left hn]
    case neg => rw [chunkLen, Nat.sub_eq_zero_of_le (by omega), Nat.min_zero]; simp [ByteMem.bytes]

/-- The last chunk is shorter than a header only if what is left after full chunks is. -/
theorem hdrSize_le_last_iff (h : hdrSize ≤ loadszOf arg client) :
    hdrSize ≤ chunkLen arg client (lastChunk arg client) ↔
      loadszOf arg client ≤ dofChunksz ∨ loadszOf arg client % dofChunksz = 0 ∨
        hdrSize ≤ loadszOf arg client % dofChunksz := by
  unfold chunkLen lastChunk dofChunksz hdrSize at *
  omega

/-- **A DOF in memory that does not change is delivered, each byte of it fetched once after the
header, if and only if it fits one chunk or the last chunk is not shorter than a header.** -/
theorem dof_delivered_iff (hmalloc : IsMalloc malloc) (hroom : ∀ n ≤ dofMaxsz, malloc n ≠ none)
    {u : Userdata} (hu : u.state = .start) (m : ByteMem) (arg dof loadsz : Nat)
    (hdof : m.u64 (arg + 72) = dof) (hloadsz : m.u64 (dof + 40) = loadsz)
    (hmin : hdrSize ≤ loadsz) (hmax : loadsz ≤ dofMaxsz) :
    (∃ n iovs, transfer malloc arg (fun _ => m) u n =
        .processed (m.bytes arg helperSize) (m.bytes dof loadsz)
          ((arg, helperSize) :: (dof, hdrSize) :: iovs) ∧
      addresses iovs = (List.range loadsz).map (dof + ·)) ↔
      loadsz ≤ dofChunksz ∨ loadsz % dofChunksz = 0 ∨ hdrSize ≤ loadsz % dofChunksz := by
  have hdof' : (dofAddr arg fun _ => m) = dof := dofAddr_eq.trans hdof
  have hloadsz' : (loadszOf arg fun _ => m) = loadsz := by rw [loadszOf_eq, hdof', hloadsz]
  have hlast : hdrSize ≤ chunkLen arg (fun _ => m) (lastChunk arg fun _ => m) ↔ _ :=
    hdrSize_le_last_iff (by rwa [hloadsz'])
  rw [hloadsz'] at hlast
  rw [← hlast]
  have hoom : ¬((loadszOf arg fun _ => m) > dofChunksz ∧ malloc (loadszOf arg fun _ => m) = none) :=
    fun h => hroom _ (by rwa [hloadsz']) h.2
  constructor
  · rintro ⟨n, iovs, htransfer, _⟩
    have hout := eq_outcome_of_done hmalloc hu (by rw [htransfer]; trivial)
    rw [htransfer, outcome, if_neg hoom] at hout
    refine Nat.le_of_not_lt fun hshort => ?_
    rw [if_pos hshort] at hout
    cases hout
  · intro hlong
    obtain ⟨n, hn⟩ : ∃ n, transfer malloc arg (fun _ => m) u n = _ := transfer_eq hmalloc hu
    have hend : min ((lastChunk arg (fun _ => m) + 1) * dofChunksz) (loadszOf arg fun _ => m) =
        loadsz := by
      have hpos : 0 < loadszOf arg fun _ => m := by
        unfold hdrSize at hmin
        omega
      have := (lastChunk_spec hpos).2
      omega
    rw [outcome, if_neg hoom, if_neg (not_lt.mpr hlong), chunks_const, hend, hdof'] at hn
    refine ⟨n, _, by rw [hn, iovsOf, hdof']; rfl, ?_⟩
    rw [← hdof', addresses_chunks, hend]

def someMalloc (n : Nat) : Option Bytes := if n < 2 ^ 63 then some (List.replicate n 0) else none

theorem isMalloc_someMalloc : IsMalloc someMalloc := by
  intro n buf h
  unfold someMalloc at h
  split at h
  case isTrue hn =>
    obtain rfl := Option.some.inj h
    exact ⟨length_replicate, hn⟩
  case isFalse => cases h

theorem someMalloc_ne_none : ∀ n ≤ dofMaxsz, someMalloc n ≠ none := by
  intro n hn
  have hlt : n < 2 ^ 63 := lt_of_le_of_lt hn (by decide)
  rw [someMalloc, if_pos hlt]
  exact Option.some_ne_none _

/-- A client with its `dof_helper_t` at 0 and the DOF at 4096. -/
def clientMem (loadsz : Nat) : ByteMem :=
  ByteMem.write (ByteMem.write (fun _ => 0) 72 (ByteMem.le64 4096)) 4136 (ByteMem.le64 loadsz)

def freshUser : Userdata := ⟨.start, [], [], 0, none⟩

theorem chunk_and_header_delivered :
    ∃ n iovs, transfer someMalloc 0 (fun _ => clientMem 65600) freshUser n =
        .processed ((clientMem 65600).bytes 0 helperSize) ((clientMem 65600).bytes 4096 65600)
          ((0, helperSize) :: (4096, hdrSize) :: iovs) ∧
      addresses iovs = (List.range 65600).map (4096 + ·) :=
  (dof_delivered_iff isMalloc_someMalloc someMalloc_ne_none rfl (clientMem 65600) 0 4096 65600
    (by decide +kernel) (by decide +kernel) (by decide) (by decide)).mpr
    (.inr (.inr (by decide)))

/-- A DOF that is one byte longer than a chunk is refused. -/
theorem chunk_and_byte_refused :
    (∃ n, transfer someMalloc 0 (fun _ => clientMem 65537) freshUser n = .failed "DOF too small") ∧
      ∀ n dh buf iovs, transfer someMalloc 0 (fun _ => clientMem 65537) freshUser n ≠
        .processed dh buf iovs := by
  have hloadsz : (loadszOf 0 fun _ => clientMem 65537) = 65537 := by decide +kernel
  have hout : outcome 0 (fun _ => clientMem 65537) someMalloc = .failed "DOF too small" := by
    rw [outcome, chunkLen, lastChunk, hloadsz]
    decide
  obtain ⟨n, hn⟩ := transfer_eq isMalloc_someMalloc (u := freshUser) rfl
  refine ⟨⟨n, hn.trans hout⟩, fun n dh buf iovs h => ?_⟩
  have := eq_outcome_of_done isMalloc_someMalloc rfl (by rw [h]; trivial)
  rw [h, hout] at this
  cases this

/-! ## What is sent -/

/-- `dof_parser_host_write` sends as much as the header says. -/
def hostWriteLen (buf : Bytes) : Nat := dofhLoadsz (ByteMem.ofBytes buf)

/-- The number of bytes that were fetched after the header. -/
def fetchedLen (iovs : List (Nat × Nat)) : Nat := ((iovs.drop 2).map Prod.snd).sum

/-- **Of a client that may change its memory between fetches, no more is sent than was fetched, and
exactly the buffer, if and only if the load size is the same in both fetches of the header.** -/
theorem sent_eq_fetched_iff (hmalloc : IsMalloc malloc) {u : Userdata} (hu : u.state = .start)
    {arg : Nat} {client : Nat → ByteMem} {n : Nat} {dh buf : Bytes} {iovs : List (Nat × Nat)}
    (h : transfer malloc arg client u n = .processed dh buf iovs) :
    (hostWriteLen buf ≤ fetchedLen iovs ∧ hostWriteLen buf = buf.length) ↔
      (client 2).u64 ((client 0).u64 (arg + 72) + 40) =
        (client 1).u64 ((client 0).u64 (arg + 72) + 40) := by
  have hout := eq_outcome_of_done hmalloc hu (by rw [h]; trivial)
  rw [h, outcome] at hout
  split at hout
  case isTrue => cases hout
  split at hout
  case isTrue => cases hout
  case isFalse hlong =>
    obtain ⟨rfl, rfl, rfl⟩ := Transfer.processed.inj hout
    have hpos : 0 < loadszOf arg client := by
      unfold chunkLen hdrSize at hlong
      omega
    obtain ⟨hlast, hend⟩ := lastChunk_spec hpos
    have hfetched : fetchedLen (iovsOf arg client (lastChunk arg client + 1)) =
        loadszOf arg client := by
      rw [fetchedLen, iovsOf, drop_succ_cons, drop_succ_cons, drop_zero, map_map]
      exact (sum_chunkLen _).trans (by omega)
    have hlen : (chunks arg client (lastChunk arg client + 1)).length = loadszOf arg client := by
      rw [chunks_succ, length_append, length_chunks hlast, length_chunk, chunkLen]
      rw [add_one_mul] at hend
      omega
    have hsent : hostWriteLen (chunks arg client (lastChunk arg client + 1)) =
        (client 2).u64 (dofAddr arg client + 40) := by
      have hfirst : 40 + 8 ≤ chunkLen arg client 0 ∧ chunkLen arg client 0 ≤ 2 ^ 64 := by
        unfold chunkLen dofChunksz hdrSize at *
        omega
      rw [hostWriteLen, dofhLoadsz, chunks_eq_append, chunk, zero_mul,
        ByteMem.u64_ofBytes_bytes _ hfirst.1 hfirst.2, Nat.add_zero (dofAddr arg client)]
    rw [hsent, hfetched, hlen, loadszOf_eq, dofAddr_eq]
    omega

/-- A client that says another load size from the third fetch on. -/
def changingClient (first second : Nat) (k : Nat) : ByteMem :=
  if k < 2 then clientMem first else clientMem second

/-- It has the daemon send 200 bytes from a buffer of 100. -/
theorem changed_loadsz_overread :
    ∃ n dh buf iovs, transfer someMalloc 0 (changingClient 100 200) freshUser n =
        .processed dh buf iovs ∧
      fetchedLen iovs = 100 ∧ buf.length = 100 ∧ hostWriteLen buf = 200 := by
  refine ⟨4, (clientMem 100).bytes 0 helperSize, (clientMem 200).bytes 4096 100,
    [(0, helperSize), (4096, hdrSize), (4096, 100)], ?_⟩
  decide +kernel

theorem changing_client_ends :
    ∃ k, ∀ n, k ≤ n → (transfer someMalloc 0 (changingClient 100 200) freshUser n).Done := by
  obtain ⟨k, hk⟩ : ∃ k, ∀ n, k ≤ n →
      (transfer someMalloc 0 (changingClient 100 200) freshUser n).Done ∧ _ :=
    transfer_ends isMalloc_someMalloc rfl
  exact ⟨k, fun n hn => (hk n hn).1⟩

/-- A client that does not. -/
theorem same_loadsz_sent :
    let iovs := [(0, helperSize), (4096, hdrSize), (4096, 100)]
    let buf := (clientMem 100).bytes 4096 100
    hostWriteLen buf ≤ fetchedLen iovs ∧ hostWriteLen buf = buf.length := by
  have h : transfer someMalloc 0 (changingClient 100 100) freshUser 4 =
      .processed ((clientMem 100).bytes 0 helperSize) ((clientMem 100).bytes 4096 100)
        [(0, helperSize), (4096, hdrSize), (4096, 100)] := by decide +kernel
  exact (sent_eq_fetched_iff isMalloc_someMalloc rfl h).mpr (by decide +kernel)

end DTrace.Dtprobed
