import DTrace.Dof.Stream

/-!
# dtprobed: processing DOF

The daemon sends DOF to the parser, reads one provider with its probes from the pipe and creates the
probes in the process the DOF came from. The pipe lives as long as the parser does, and nothing in
it says to which DOF a message belongs: here messages carry a tag that only the statements look at.

A DOF with several providers is answered with several groups of messages, of which one is read.
`inStep_iff` says that for DOF without errors every DOF gets exactly its own messages if and only if
none has more than one provider; `second_provider_read_by_next` is what happens otherwise.
-/

namespace DTrace.Dtprobed

open Dof List

/-! ## The daemon -/

/-- The arguments of `create_probe`. -/
structure Created where
  pid : Nat
  addr : Nat
  isEnabled : Bool
  prv : List (Fin 256)
  mod : List (Fin 256)
  func : List (Fin 256)
  prb : List (Fin 256)
  deriving DecidableEq, Repr

/-- The pipe from the parser, and what was read and created for the DOF at hand. -/
structure Host (τ : Type) where
  pipe : List (τ × Msg)
  read : List (τ × Msg)
  created : List Created
  deriving DecidableEq, Repr

variable {τ : Type}

/-- `none` for an error, and if there is nothing to read until the timeout. -/
def dofRead (h : Host τ) : Option Msg × Host τ :=
  match h.pipe with
  | [] => (none, h)
  | (tag, msg) :: pipe =>
    let h := { h with pipe := pipe, read := h.read ++ [(tag, msg)] }
    match msg with
    | .err _ => (none, h)
    | msg => (some msg, h)

/-- A new parser has a new pipe. -/
def dofParserTidy (h : Host τ) : Host τ := { h with pipe := [] }

def createProbe (pid : Nat) (prv mod func prb : List (Fin 256)) (addr : Nat) (isEnabled : Bool)
    (h : Host τ) : Host τ :=
  { h with created := h.created ++ [⟨pid, addr, isEnabled, prv, mod, func, prb⟩] }

/-- The loop over the tracepoints of a probe. -/
def readTps (pid : Nat) (prv mod func prb : List (Fin 256)) : Nat → Host τ → Bool × Host τ
  | 0, h => (true, h)
  | j + 1, h =>
    match dofRead h with
    | (some (.tracepoint addr isEnabled), h) =>
      readTps pid prv mod func prb j (createProbe pid prv mod func prb addr isEnabled h)
    | (_, h) => (false, h)

/-- The loop over the probes of a provider. -/
def readProbes (pid : Nat) (prv : List (Fin 256)) : Nat → Host τ → Bool × Host τ
  | 0, h => (true, h)
  | i + 1, h =>
    match dofRead h with
    | (some (.probe ntp mod func prb), h) =>
      match readTps pid prv mod func prb ntp h with
      | (true, h) => readProbes pid prv i h
      | (false, h) => (false, h)
    | (_, h) => (false, h)

/-- The DOF is sent, and once more after every read that failed as long as there are retries. The
parser answers with `reply`. -/
def readProvider (reply : List (τ × Msg)) : Nat → Host τ → Option (Nat × List (Fin 256)) × Host τ
  | retries, h =>
    match dofRead { h with pipe := h.pipe ++ reply } with
    | (some (.provider nprobes prv), h) => (some (nprobes, prv), h)
    | (some _, h) => (none, h)
    | (none, h) =>
      match retries with
      | 0 => (none, h)
      | retries + 1 => readProvider reply retries (dofParserTidy h)

/-- `grabbed` is whether the process could be stopped. -/
def processDof (pid : Nat) (grabbed : Bool) (reply : List (τ × Msg)) (h : Host τ) :
    Bool × Host τ :=
  if grabbed then
    match readProvider reply 2 h with
    | (none, h) => (false, dofParserTidy h)
    | (some (nprobes, prv), h) =>
      match readProbes pid prv nprobes h with
      | (true, h) => (true, h)
      | (false, h) => (false, dofParserTidy h)
  else (false, dofParserTidy h)

/-! ## Requests -/

/-- A client and its DOF. -/
structure Request where
  pid : Nat
  grabbed : Bool
  dhp : Helper
  dof : Mem

/-- What the parser answers, with a tag. -/
def Request.reply (qsort : Qsort) (r : Request) (tag : τ) : List (τ × Msg) :=
  (dofParse qsort r.dhp r.dof).map (tag, ·)

/-- The number of provider sections up to the first that is not valid. -/
def Request.providers (qsort : Qsort) (r : Request) : Option Nat :=
  match dofSlurp r.dof r.dhp.addr with
  | .error _ => none
  | .ok m => (parseFrom qsort r.dhp (2 ^ 32) 0 m).2

/-- The probes that the messages ask for, given the provider and probe at hand. -/
def probesOf (pid : Nat) : (prv mod func prb : List (Fin 256)) → List Msg → List Created
  | _, _, _, _, [] => []
  | _, mod, func, prb, .provider _ prv :: msgs => probesOf pid prv mod func prb msgs
  | prv, _, _, _, .probe _ mod func prb :: msgs => probesOf pid prv mod func prb msgs
  | prv, mod, func, prb, .tracepoint addr isEnabled :: msgs =>
    ⟨pid, addr, isEnabled, prv, mod, func, prb⟩ :: probesOf pid prv mod func prb msgs
  | prv, mod, func, prb, .err _ :: msgs => probesOf pid prv mod func prb msgs

/-- Every request is answered by its own messages and no others, the `k`-th one of all with those
that are tagged with `k`, and its probes are created in the process it came from. -/
def InStep (qsort : Qsort) : Nat → List Request → List (Nat × Msg) → Prop
  | _, [], _ => True
  | k, r :: rs, pipe =>
    let (ok, h) := processDof r.pid r.grabbed (r.reply qsort k) ⟨pipe, [], []⟩
    ok = true ∧ h.read = r.reply qsort k ∧
      h.created = probesOf r.pid [] [] [] [] (dofParse qsort r.dhp r.dof) ∧
      InStep qsort (k + 1) rs h.pipe

/-- The process is there, all of the DOF is accepted and no probe is an error. -/
structure Request.Valid (qsort : Qsort) (r : Request) : Prop where
  grabbed : r.grabbed = true
  accepted : r.providers qsort ≠ none
  noErr : ∀ msg ∈ dofParse qsort r.dhp r.dof, ¬msg.IsErr

/-! ## Reading what has the right form -/

theorem dofRead_cons {tag : τ} {msg : Msg} {pipe read : List (τ × Msg)} {created : List Created}
    (hmsg : ¬msg.IsErr) :
    dofRead ⟨(tag, msg) :: pipe, read, created⟩ =
      (some msg, ⟨pipe, read ++ [(tag, msg)], created⟩) := by
  cases msg with
  | err e => exact absurd trivial hmsg
  | provider _ _ => rfl
  | probe _ _ _ _ => rfl
  | tracepoint _ _ => rfl

section

variable {pid : Nat} {prv : List (Fin 256)} {tag : τ} {rest : List Msg} {read : List (τ × Msg)}
  {created : List Created}

theorem readTps_eq {mod func prb : List (Fin 256)} {tps : List Msg}
    (htps : ∀ msg ∈ tps, msg.IsTracepoint) :
    readTps pid prv mod func prb tps.length ⟨(tps ++ rest).map (tag, ·), read, created⟩ =
      (true, ⟨rest.map (tag, ·), read ++ tps.map (tag, ·),
        created ++ probesOf pid prv mod func prb tps⟩) := by
  induction tps generalizing read created with
  | nil => simp [readTps, probesOf]
  | cons msg tps ih =>
    cases msg with
    | tracepoint addr isEnabled =>
      rw [length_cons, readTps, cons_append, map_cons, dofRead_cons id]
      dsimp only [createProbe]
      rw [ih fun msg hmsg => htps msg (mem_cons_of_mem _ hmsg)]
      simp [probesOf]
    | provider _ _ | probe _ _ _ _ | err _ => exact (htps _ mem_cons_self).elim

theorem probesOf_tps_append {mod func prb : List (Fin 256)} {tps : List Msg}
    (htps : ∀ msg ∈ tps, msg.IsTracepoint) (msgs : List Msg) :
    probesOf pid prv mod func prb (tps ++ msgs) =
      probesOf pid prv mod func prb tps ++ probesOf pid prv mod func prb msgs := by
  induction tps with
  | nil => rfl
  | cons msg tps ih =>
    have ih := ih fun msg hmsg => htps msg (mem_cons_of_mem _ hmsg)
    cases msg with
    | tracepoint addr isEnabled => simp [probesOf, ih]
    | provider _ _ | probe _ _ _ _ | err _ => exact (htps _ mem_cons_self).elim

theorem readProbes_eq {groups : List (List Msg)} (hgroups : ∀ group ∈ groups, IsProbe group)
    (mod func prb : List (Fin 256)) :
    readProbes pid prv groups.length ⟨(groups.flatten ++ rest).map (tag, ·), read, created⟩ =
      (true, ⟨rest.map (tag, ·), read ++ groups.flatten.map (tag, ·),
        created ++ probesOf pid prv mod func prb groups.flatten⟩) := by
  induction groups generalizing read created mod func prb with
  | nil => simp [readProbes, probesOf]
  | cons group groups ih =>
    obtain ⟨hlen, htps⟩ := hgroups group mem_cons_self
    rename_i ntp mod' func' prb' tps
    have hrest := fun group hgroup => hgroups group (mem_cons_of_mem _ hgroup)
    rw [length_cons, readProbes, flatten_cons, cons_append, cons_append,
      map_cons, dofRead_cons id]
    dsimp only
    rw [append_assoc, ← hlen, readTps_eq htps]
    dsimp only
    rw [ih hrest mod' func' prb']
    simp [probesOf, probesOf_tps_append htps]

/-- The first group is read and the others stay in the pipe. -/
theorem processDof_eq {group : List Msg} (hgroup : IsProvider group) :
    processDof pid true ((group ++ rest).map (tag, ·)) ⟨[], [], []⟩ =
      (true, ⟨rest.map (tag, ·), group.map (tag, ·), probesOf pid [] [] [] [] group⟩) := by
  obtain ⟨hlen, hprobes⟩ := hgroup
  rename_i nprobes prv groups
  have hprovider : readProvider (((.provider nprobes prv :: groups.flatten) ++ rest).map (tag, ·)) 2
      ⟨[], [], []⟩ = (some (nprobes, prv),
        ⟨(groups.flatten ++ rest).map (tag, ·), [(tag, .provider nprobes prv)], []⟩) := by
    rfl
  rw [processDof, hprovider]
  dsimp only
  rw [← hlen, readProbes_eq hprobes [] [] []]
  simp [probesOf]

end

/-! ## Requests without errors -/

/-- A group for every provider section, or one if there is none. -/
theorem Request.Valid.groups {qsort : Qsort} {r : Request} (h : r.Valid qsort) :
    ∃ group groups, dofParse qsort r.dhp r.dof = group ++ flatten groups ∧
      (∀ g ∈ group :: groups, IsProvider g) ∧
      (groups = [] ↔ ∀ n ∈ r.providers qsort, n ≤ 1) := by
  have haccepted := h.accepted
  have hnoErr := h.noErr
  rw [Request.providers] at haccepted ⊢
  cases hslurp : dofSlurp r.dof r.dhp.addr with
  | error es => simp [hslurp] at haccepted
  | ok m =>
    rw [dofParse_of_slurp hslurp] at hnoErr ⊢
    simp only [hslurp] at haccepted
    obtain ⟨n, hn⟩ := Option.ne_none_iff_exists'.mp haccepted
    simp only [hn, Option.mem_def, Option.some.injEq, forall_eq'] at hnoErr ⊢
    cases n with
    | zero =>
      exact ⟨[.provider 0 []], [], rfl,
        fun g hg => mem_singleton.mp hg ▸ @IsProvider.mk 0 [] [] rfl nofun, by simp⟩
    | succ n =>
      obtain ⟨groups, hflat, hlen, hgroups⟩ := parseFrom_groups hn hnoErr
      cases groups with
      | nil => cases hlen
      | cons group groups =>
        refine ⟨group, groups, hflat, hgroups, ?_⟩
        rw [length_cons] at hlen
        rw [← length_eq_zero_iff]
        omega

/-- **As long as no DOF has an error, the daemon and the parser stay in step if and only if no DOF
has more than one provider.** -/
theorem inStep_iff {qsort : Qsort} {rs : List Request} (hvalid : ∀ r ∈ rs, r.Valid qsort) (k : Nat) :
    InStep qsort k rs [] ↔ ∀ r ∈ rs, ∀ n ∈ r.providers qsort, n ≤ 1 := by
  induction rs generalizing k with
  | nil => simp [InStep]
  | cons r rs ih =>
    have ih := ih (fun r hr => hvalid r (mem_cons_of_mem _ hr)) (k + 1)
    obtain ⟨group, groups, hparse, hgroups, hone⟩ := (hvalid r mem_cons_self).groups
    have hprocess : processDof r.pid true ((group ++ groups.flatten).map (k, ·)) ⟨[], [], []⟩ = _ :=
      processDof_eq (hgroups group mem_cons_self)
    rw [InStep, (hvalid r mem_cons_self).grabbed, Request.reply, hparse, hprocess]
    rw [forall_mem_cons, ← hone]
    constructor
    · rintro ⟨_, hread, _, hrest⟩
      -- what was read is only the first group, and the others are not empty
      have hnil : groups.flatten = [] := by simpa using hread
      have : groups = [] := by
        refine eq_nil_iff_forall_not_mem.mpr fun g hg => ?_
        exact (hgroups g (mem_cons_of_mem _ hg)).ne_nil (flatten_eq_nil_iff.mp hnil g hg)
      rw [hnil, map_nil, ih] at hrest
      exact ⟨this, hrest⟩
    · rintro ⟨rfl, hrest⟩
      simp only [flatten_nil, append_nil]
      exact ⟨trivial, trivial, trivial, ih.mpr hrest⟩

def mergeSort : Qsort := fun cmp xs => xs.mergeSort fun x y => decide (cmp x y ≤ 0)

/-- DOF with providers that all have the one probe with one tracepoint. -/
def dofOf (offset providers : Nat) : Mem :=
  image 2 ([strings, args, offsets [offset], ⟨Sect.probes, 8, 48, probe 1 0⟩] ++
    replicate providers (provider 0 3 1 2 0))

def requestOf (pid offset providers : Nat) : Request := ⟨pid, true, ⟨[], 0⟩, dofOf offset providers⟩

/-- The messages for one provider. -/
def groupOf (addr : Nat) : List Msg :=
  [.provider 1 [112], .probe 1 [] [102] [110], .tracepoint addr false]

theorem answer_four_one : dofParse mergeSort ⟨[], 0⟩ (dofOf 4 1) = groupOf 0x1004 ∧
    (requestOf 1 4 1).providers mergeSort = some 1 := by decide +kernel

theorem answer_four_two :
    dofParse mergeSort ⟨[], 0⟩ (dofOf 4 2) = groupOf 0x1004 ++ groupOf 0x1004 ∧
      (requestOf 1 4 2).providers mergeSort = some 2 := by decide +kernel

theorem answer_eight_one : dofParse mergeSort ⟨[], 0⟩ (dofOf 8 1) = groupOf 0x1008 ∧
    (requestOf 2 8 1).providers mergeSort = some 1 := by decide +kernel

theorem valid_of_answer {r : Request} {msgs : List Msg} {n : Nat} (hgrabbed : r.grabbed = true)
    (h : dofParse mergeSort r.dhp r.dof = msgs ∧ r.providers mergeSort = some n)
    (hmsgs : ∀ msg ∈ msgs, ¬msg.IsErr) : r.Valid mergeSort :=
  ⟨hgrabbed, by simp [h.2], by rwa [h.1]⟩

theorem two_clients_inStep :
    InStep mergeSort 0 [requestOf 1 4 1, requestOf 2 8 1] [] := by
  have hvalid : ∀ r ∈ [requestOf 1 4 1, requestOf 2 8 1], r.Valid mergeSort :=
    forall_mem_cons.mpr ⟨valid_of_answer rfl answer_four_one (by decide),
      forall_mem_singleton.mpr (valid_of_answer rfl answer_eight_one (by decide))⟩
  rw [inStep_iff hvalid, forall_mem_cons, forall_mem_singleton, answer_four_one.2,
    answer_eight_one.2]
  exact ⟨by decide, by decide⟩

/-- The first client has two providers. The second one of them is created in the process of the
second client, whose own messages stay in the pipe. -/
theorem second_provider_read_by_next :
    (requestOf 1 4 2).Valid mergeSort ∧ (requestOf 2 8 1).Valid mergeSort ∧
      let h₁ := (processDof 1 true ((requestOf 1 4 2).reply mergeSort 0) ⟨[], [], []⟩).2
      let h₂ := (processDof 2 true ((requestOf 2 8 1).reply mergeSort 1) ⟨h₁.pipe, [], []⟩).2
      h₂.created = [⟨2, 0x1004, false, [112], [], [102], [110]⟩] ∧
        h₂.read = [(0, .provider 1 [112]), (0, .probe 1 [] [102] [110]),
          (0, .tracepoint 0x1004 false)] ∧
        h₂.pipe = [(1, .provider 1 [112]), (1, .probe 1 [] [102] [110]),
          (1, .tracepoint 0x1008 false)] := by
  refine ⟨valid_of_answer rfl answer_four_two (by decide),
    valid_of_answer rfl answer_eight_one (by decide), ?_⟩
  have hfirst : (requestOf 1 4 2).reply mergeSort 0 =
      (groupOf 0x1004 ++ groupOf 0x1004).map (0, ·) := by
    rw [Request.reply, requestOf, answer_four_two.1]
  have hsecond : (requestOf 2 8 1).reply mergeSort 1 = (groupOf 0x1008).map (1, ·) := by
    rw [Request.reply, requestOf, answer_eight_one.1]
  rw [hfirst, hsecond]
  decide

end DTrace.Dtprobed
