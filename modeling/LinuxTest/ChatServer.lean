/-
The `poll` loop of `cpp/chatServer.cpp`.  A message that one client sends is
left in its buffer, and every other client is given a pointer to it, to be
written once `poll` says so.
-/
import Mathlib.Data.List.Nodup
import Mathlib.Data.BitVec
import LinuxTest.ByteString
import LinuxTest.Runs

namespace LinuxTest

namespace ChatServer

def POLLIN : BitVec 16 := 0x0001

def POLLOUT : BitVec 16 := 0x0004

def POLLRDHUP : BitVec 16 := 0x2000

structure Pollfd where
  fd : Nat
  events : BitVec 16
  revents : BitVec 16
deriving DecidableEq

/-- The pointer `write_pos` is the number of the client whose `buf` it is. -/
structure CliData where
  buf : Bytes
  write_pos : Option Nat
  fd : Nat
deriving DecidableEq

/-- What `strlen` takes of a buffer. -/
def CliData.text (c : CliData) : Bytes :=
  c.buf.takeWhile (· ≠ 0)

/-- The vectors, the variables of the two loops, and whether the tests for
`POLLIN` of this round are done. -/
structure Server where
  server_fd : Nat
  fds : List Pollfd
  clidatas : List CliData
  fds_size : Nat
  i : Nat
  read : Bool
  /-- The messages that the others have sent since a client came, each as `recv`
  has got it, and what the client was written.  The code does not keep them. -/
  sent : Nat → List Bytes
  written : Nat → Bytes

namespace Server

/-- Before the first `poll`. -/
def init (server_fd : Nat) : Server :=
  ⟨server_fd, [⟨server_fd, POLLIN, 0⟩], [], 0, 0, false, fun _ => [],
    fun _ => []⟩

def poll (revents : List (BitVec 16)) (s : Server) : Option Server :=
  if s.i = s.fds_size then
    some { s with
      fds := s.fds.zipWith (fun p r => { p with revents := r }) revents
      fds_size := s.fds.length
      i := 0
      read := false }
  else
    none

def accept (con_fd : Nat) (s : Server) : Server :=
  { s with
    fds := s.fds ++ [⟨con_fd, POLLIN ||| POLLRDHUP, 0⟩]
    clidatas := s.clidatas ++ [⟨List.replicate 64 0, none, con_fd⟩] }

/-- The loop over `j`, on `fds[j + 1]` and `clidatas[j]`. -/
def announce (src fd : Nat) :
    List Pollfd → List CliData → Option (List Pollfd × List CliData)
  | _, [] => some ([], [])
  | [], _ :: _ => none
  | p :: fds, c :: clidatas => do
      let rest ← announce src fd fds clidatas
      if c.fd = fd then
        some (p :: rest.1, c :: rest.2)
      else
        some ({ p with events := p.events ||| ~~~POLLIN ||| POLLOUT } :: rest.1,
          { c with write_pos := some src } :: rest.2)

/-- The buffer after `memset`, `recv` and the final zero. -/
def filled (data : Bytes) : Bytes :=
  (data ++ List.replicate (64 - data.length) 0).set (data.length - 1) 0

/-- The message of client `k`, if `recv` has got one.  Without a byte the final
zero goes before the buffer. -/
def receive (k fd : Nat) (received : Option Bytes) (s : Server) :
    Option Server := do
  let data ← received
  if data = [] then
    none
  else
    let c ← s.clidatas[k]?
    let s := { s with
      clidatas := s.clidatas.set k { c with buf := filled data }
      sent := fun j => if j < s.clidatas.length ∧ j ≠ k then
        s.sent j ++ [data] else s.sent j }
    if data.length - 1 > 0 then
      let first ← s.fds.head?
      let (fds, clidatas) ← announce k fd s.fds.tail s.clidatas
      some { s with
        fds := first :: fds
        clidatas := clidatas }
    else
      some s

/-- What waits for client `k` is written, of which the socket takes
`accepted`. -/
def transmit (k accepted : Nat) (p : Pollfd) (s : Server) :
    Option Server := do
  let c ← s.clidatas[k]?
  match c.write_pos with
  | none => some s
  | some src =>
      let source ← s.clidatas[src]?
      some { s with
        clidatas := s.clidatas.set k { c with write_pos := none }
        fds := s.fds.set (k + 1)
          { p with events := p.events ||| ~~~POLLOUT ||| POLLIN }
        written := Function.update s.written k
          (s.written k ++ source.text.take accepted) }

end Server

/-- What the kernel answers: to `poll`, to `accept` or `recv`, to `write`. -/
inductive Event where
  | poll (revents : List (BitVec 16))
  | input (con_fd : Nat) (received : Option Bytes)
  | output (accepted : Nat)
deriving DecidableEq

namespace Server

/-- The first two tests of a round. -/
def input (con_fd : Nat) (received : Option Bytes) (s : Server) :
    Option Server :=
  if s.i < s.fds_size ∧ s.read = false then do
    let p ← s.fds[s.i]?
    let s ←
      if p.revents &&& POLLIN = 0 then some s
      else if p.fd = s.server_fd then some (s.accept con_fd)
      else s.receive (s.i - 1) p.fd received
    some { s with read := true }
  else
    none

/-- The third; the fourth does nothing. -/
def output (accepted : Nat) (s : Server) : Option Server :=
  if s.i < s.fds_size ∧ s.read = true then do
    let p ← s.fds[s.i]?
    let s ←
      if p.revents &&& POLLOUT = 0 ∨ p.fd = s.server_fd then some s
      else s.transmit (s.i - 1) accepted p
    some { s with i := s.i + 1, read := false }
  else
    none

def step (s : Server) : Event → Option Server
  | .poll revents => s.poll revents
  | .input con_fd received => s.input con_fd received
  | .output accepted => s.output accepted

/-! ### What is due -/

/-- What `write_pos` of a client points to. -/
def waits (clidatas : List CliData) (c : CliData) : Bytes :=
  c.write_pos.elim [] fun src => (clidatas[src]?).elim [] CliData.text

/-- What waits to be written to client `j`. -/
def pending (s : Server) (j : Nat) : Bytes :=
  (s.clidatas[j]?).elim [] (waits s.clidatas)

/-- What is due to client `j`: each message of the others without its last byte,
which the final zero takes the place of. -/
def due (s : Server) (j : Nat) : Bytes :=
  (s.sent j).flatMap List.dropLast

/-- Each client has been written what is due to it, but for what waits; and
where something waits, `poll` is asked for it. -/
structure Delivers (s : Server) : Prop where
  exact : ∀ j < s.clidatas.length, s.written j ++ s.pending j = s.due j
  asked : ∀ j p c, s.fds[j + 1]? = some p → s.clidatas[j]? = some c →
    c.write_pos ≠ none → p.events &&& POLLOUT ≠ 0

/-- The client whose socket is read next. -/
def reading (s : Server) : Option Nat :=
  match s.fds[s.i]? with
  | some p =>
      if p.revents &&& POLLIN = 0 ∨ p.fd = s.server_fd then none
      else some (s.i - 1)
  | none => none

/-- The client whose socket is written next. -/
def writing (s : Server) : Option Nat :=
  match s.fds[s.i]? with
  | some p =>
      if p.revents &&& POLLOUT = 0 ∨ p.fd = s.server_fd then none
      else some (s.i - 1)
  | none => none

/-- The loop is at this call, and the kernel may answer so. -/
def allowed (s : Server) : Event → Prop
  | .poll revents => s.i = s.fds_size ∧ revents.length = s.fds.length
  | .input con_fd received => s.i < s.fds_size ∧ s.read = false ∧
      con_fd ∉ s.fds.map Pollfd.fd ∧
      ∀ data ∈ received, data.length ≤ 63
  | .output accepted => s.i < s.fds_size ∧ s.read = true ∧
      ∀ k ∈ s.writing, accepted ≤ (s.pending k).length

/-- Nothing gets lost for client `j` when client `k` sends `data`: a message has
no zero byte and finds nothing waiting, an empty one overwrites nothing. -/
def ready (s : Server) (k : Nat) (data : Bytes) (j : Nat) : Prop :=
  if 1 < data.length then s.pending j = [] ∧ 0 ∉ data.dropLast
  else (s.clidatas[j]?).bind CliData.write_pos = some k → s.pending j = []

/-- Nothing gets lost for the other clients, the client that is read is still
there, and all that waits is taken. -/
def good (s : Server) : Event → Prop
  | .poll _ => True
  | .input _ received => ∀ k ∈ s.reading, ∃ data ∈ received, data ≠ [] ∧
      ∀ j < s.clidatas.length, j ≠ k → s.ready k data j
  | .output accepted => ∀ k ∈ s.writing, accepted = (s.pending k).length

instance (s : Server) (event : Event) : Decidable (s.allowed event) :=
  match event with
  | .poll _ => inferInstanceAs (Decidable (_ ∧ _))
  | .input _ _ => inferInstanceAs (Decidable (_ ∧ _ ∧ _ ∧ _))
  | .output _ => inferInstanceAs (Decidable (_ ∧ _ ∧ _))

instance (s : Server) (k : Nat) (data : Bytes) (j : Nat) :
    Decidable (s.ready k data j) :=
  inferInstanceAs (Decidable (ite _ _ _))

instance (s : Server) (event : Event) : Decidable (s.good event) :=
  match event with
  | .poll _ => isTrue trivial
  | .input _ received => inferInstanceAs (Decidable (∀ k ∈ s.reading,
      ∃ data ∈ received, data ≠ [] ∧ ∀ j < s.clidatas.length, j ≠ k →
        s.ready k data j))
  | .output accepted => inferInstanceAs (Decidable (∀ k ∈ s.writing,
      accepted = (s.pending k).length))

/-! ### The buffers -/

theorem takeWhile_replicate_zero (before : Bytes) (n : Nat) :
    (before ++ (0 : UInt8) :: List.replicate n 0).takeWhile (· ≠ 0) =
      before.takeWhile (· ≠ 0) := by
  induction before with
  | nil => simp
  | cons b before ih =>
      by_cases hb : b = 0
      · simp [hb]
      · simpa [hb] using ih

/-- The last byte of what `recv` has got is not sent on. -/
theorem text_filled {data : Bytes} (hdata : data ≠ []) :
    (filled data).takeWhile (· ≠ 0) = data.dropLast.takeWhile (· ≠ 0) := by
  obtain ⟨before, last, rfl⟩ : ∃ before last, data = before ++ [last] :=
    ⟨data.dropLast, data.getLast hdata,
      (List.dropLast_append_getLast hdata).symm⟩
  have hset : filled (before ++ [last]) =
      before ++ (0 : UInt8) :: List.replicate (64 - (before.length + 1)) 0 := by
    simp [filled, List.append_assoc]
  rw [hset, takeWhile_replicate_zero, List.dropLast_concat]

theorem announce_eq (src fd : Nat) {fds : List Pollfd}
    {clidatas : List CliData} (hlength : fds.length = clidatas.length) :
    announce src fd fds clidatas = some
      (fds.zipWith (fun p c => if c.fd = fd then p else
          { p with events := p.events ||| ~~~POLLIN ||| POLLOUT }) clidatas,
        clidatas.map fun c => if c.fd = fd then c else
          { c with write_pos := some src }) := by
  induction clidatas generalizing fds with
  | nil =>
      obtain rfl : fds = [] := List.length_eq_zero_iff.mp hlength
      rfl
  | cons c clidatas ih =>
      cases fds with
      | nil => cases hlength
      | cons p fds =>
          have hrest := ih (Nat.succ.inj hlength)
          by_cases hfd : c.fd = fd
          · simp [announce, hrest, hfd]
          · simp [announce, hrest, hfd]

/-- What always holds of the vectors: they are of the same descriptors, no
client waits for its own message, and `poll` is asked for every socket that
something waits for. -/
structure Wf (s : Server) : Prop where
  paired : s.fds.map Pollfd.fd = s.server_fd :: s.clidatas.map CliData.fd
  distinct : (s.server_fd :: s.clidatas.map CliData.fd).Nodup
  others : ∀ j c src, s.clidatas[j]? = some c → c.write_pos = some src →
    src ≠ j ∧ src < s.clidatas.length
  asked : ∀ j p c, s.fds[j + 1]? = some p → s.clidatas[j]? = some c →
    c.write_pos ≠ none → p.events &&& POLLOUT ≠ 0
  size : s.fds_size ≤ s.fds.length
  later : ∀ j, s.clidatas.length ≤ j → s.sent j = [] ∧ s.written j = []

variable {s next : Server}

theorem wf_init (server_fd : Nat) : (init server_fd).Wf := by
  refine ⟨rfl, by simp [init], ?_, ?_, Nat.zero_le _, fun _ _ => ⟨rfl, rfl⟩⟩
  · intro j c src hc
    cases hc
  · intro j p c _ hc
    cases hc

theorem Wf.length_fds (hs : s.Wf) : s.fds.length = s.clidatas.length + 1 := by
  simpa using congrArg List.length hs.paired

/-- A descriptor that is not the server's is that of a client. -/
theorem Wf.client (hs : s.Wf) {i : Nat} {p : Pollfd}
    (hp : s.fds[i]? = some p) (hne : p.fd ≠ s.server_fd) :
    ∃ k c, i = k + 1 ∧ s.clidatas[k]? = some c ∧ c.fd = p.fd := by
  have hfd : (s.server_fd :: s.clidatas.map CliData.fd)[i]? = some p.fd := by
    rw [← hs.paired, List.getElem?_map, hp]
    rfl
  cases i with
  | zero =>
      exact absurd (Option.some.inj hfd).symm hne
  | succ k =>
      rw [List.getElem?_cons_succ, List.getElem?_map,
        Option.map_eq_some_iff] at hfd
      obtain ⟨c, hc, hcp⟩ := hfd
      exact ⟨k, c, rfl, hc, hcp⟩

/-- Two clients with one descriptor are one. -/
theorem Wf.fd_inj (hs : s.Wf) {j k : Nat} {c d : CliData}
    (hc : s.clidatas[j]? = some c) (hd : s.clidatas[k]? = some d)
    (heq : c.fd = d.fd) : j = k := by
  have hnodup : (s.clidatas.map CliData.fd).Nodup := hs.distinct.of_cons
  have hj : (s.clidatas.map CliData.fd)[j]? = some c.fd := by
    rw [List.getElem?_map, hc]
    rfl
  have hk : (s.clidatas.map CliData.fd)[k]? = some c.fd := by
    rw [List.getElem?_map, hd, heq]
    rfl
  have hlt : j < (s.clidatas.map CliData.fd).length :=
    (List.getElem?_eq_some_iff.mp hj).1
  exact (List.getElem?_inj hlt hnodup).mp (hj.trans hk.symm)

theorem pending_eq {j : Nat} {c : CliData} (hc : s.clidatas[j]? = some c) :
    s.pending j = waits s.clidatas c := by
  rw [pending, hc]
  rfl

/-! ### A message comes in -/

/-- The others are sent a message by client `k`. -/
def record (k : Nat) (data : Bytes) (s : Server) : Server :=
  { s with sent := fun j => if j < s.clidatas.length ∧ j ≠ k then
      s.sent j ++ [data] else s.sent j }

/-- The buffer of client `k` is filled. -/
def setBuf (k : Nat) (c : CliData) (buf : Bytes) (s : Server) : Server :=
  { s with clidatas := s.clidatas.set k { c with buf := buf } }

/-- The other clients are pointed to the buffer of client `k`. -/
def announced (k fd : Nat) (first : Pollfd) (s : Server) : Server :=
  { s with
    fds := first :: s.fds.tail.zipWith (fun p c => if c.fd = fd then p else
      { p with events := p.events ||| ~~~POLLIN ||| POLLOUT }) s.clidatas
    clidatas := s.clidatas.map fun c => if c.fd = fd then c else
      { c with write_pos := some k } }

theorem Wf.record (hs : s.Wf) (k : Nat) (data : Bytes) :
    (s.record k data).Wf := by
  refine ⟨hs.paired, hs.distinct, hs.others, hs.asked, hs.size, ?_⟩
  intro j hj
  have hnot : ¬(j < s.clidatas.length ∧ j ≠ k) := fun h =>
    absurd h.1 (Nat.not_lt_of_le hj)
  refine ⟨?_, (hs.later j hj).2⟩
  change (if _ then _ else _) = _
  rw [if_neg hnot]
  exact (hs.later j hj).1

theorem due_record (k : Nat) (data : Bytes) {j : Nat}
    (hj : j < s.clidatas.length) :
    (s.record k data).due j =
      if j ≠ k then s.due j ++ data.dropLast else s.due j := by
  change List.flatMap _ (if j < s.clidatas.length ∧ j ≠ k then _ else _) = _
  by_cases hjk : j = k
  · rw [if_neg fun h => h.2 hjk, if_neg fun h => h hjk]
    rfl
  · rw [if_pos ⟨hj, hjk⟩, if_pos hjk, List.flatMap_append,
      List.flatMap_singleton]
    rfl

theorem getElem?_setBuf {k : Nat} {c : CliData} (hc : s.clidatas[k]? = some c)
    (buf : Bytes) (j : Nat) :
    (s.setBuf k c buf).clidatas[j]? = (s.clidatas[j]?).map fun d =>
      if j = k then { d with buf := buf } else d := by
  have hlt : k < s.clidatas.length := (List.getElem?_eq_some_iff.mp hc).1
  rw [setBuf, List.getElem?_set]
  by_cases hjk : j = k
  · subst hjk
    rw [if_pos rfl, if_pos hlt, hc]
    simp
  · simp [hjk, Ne.symm hjk]

theorem Wf.setBuf (hs : s.Wf) {k : Nat} {c : CliData}
    (hc : s.clidatas[k]? = some c) (buf : Bytes) :
    (s.setBuf k c buf).Wf := by
  have hget := getElem?_setBuf hc buf
  have hfd : (s.setBuf k c buf).clidatas.map CliData.fd =
      s.clidatas.map CliData.fd := by
    refine List.ext_getElem? fun j => ?_
    rw [List.getElem?_map, hget, List.getElem?_map, Option.map_map]
    refine congrArg (fun f => Option.map f s.clidatas[j]?) (funext fun d => ?_)
    change CliData.fd (if j = k then _ else _) = d.fd
    split <;> rfl
  have hlength : (s.setBuf k c buf).clidatas.length = s.clidatas.length :=
    List.length_set
  have hback {j : Nat} {d : CliData}
      (hd : (s.setBuf k c buf).clidatas[j]? = some d) :
      ∃ old, s.clidatas[j]? = some old ∧ old.write_pos = d.write_pos := by
    rw [hget, Option.map_eq_some_iff] at hd
    obtain ⟨old, hold, rfl⟩ := hd
    refine ⟨old, hold, ?_⟩
    split <;> rfl
  refine ⟨?_, ?_, ?_, ?_, hs.size, ?_⟩
  · rw [hfd]
    exact hs.paired
  · rw [hfd]
    exact hs.distinct
  · intro j d src hd hsrc
    obtain ⟨old, hold, hwrite⟩ := hback hd
    rw [hlength]
    exact hs.others j old src hold (hwrite.trans hsrc)
  · intro j p d hp hd hwaits
    obtain ⟨old, hold, hwrite⟩ := hback hd
    exact hs.asked j p old hp hold (hwrite ▸ hwaits)
  · intro j hj
    rw [hlength] at hj
    exact hs.later j hj

theorem pending_setBuf {k : Nat} {c : CliData} (hc : s.clidatas[k]? = some c)
    (buf : Bytes) {j : Nat} {d : CliData} (hd : s.clidatas[j]? = some d) :
    (s.setBuf k c buf).pending j = if d.write_pos = some k then
      buf.takeWhile (· ≠ 0) else s.pending j := by
  have hget := getElem?_setBuf hc buf
  rw [pending, hget, hd, pending_eq hd]
  have hwrite : (if j = k then { d with buf := buf } else d : CliData).write_pos
      = d.write_pos := by
    split <;> rfl
  simp only [Option.map_some, Option.elim_some, waits, hwrite]
  cases hsrc : d.write_pos with
  | none => rfl
  | some src =>
      simp only [Option.elim_some, Option.some.injEq, hget]
      by_cases heq : src = k
      · subst heq
        simp [hc, CliData.text]
      · cases hclient : s.clidatas[src]? with
        | none => simp [heq]
        | some other => simp [heq]

theorem or_and_POLLOUT (events : BitVec 16) :
    (events ||| POLLOUT) &&& POLLOUT = POLLOUT := by
  ext i
  simp +contextual

theorem getElem?_announced (k fd : Nat) (first : Pollfd) (s : Server)
    (j : Nat) :
    (s.announced k fd first).clidatas[j]? =
      (s.clidatas[j]?).map fun c => if c.fd = fd then c else
        { c with write_pos := some k } := by
  rw [announced, List.getElem?_map]

/-- Behind the server's own, the entries are asked for what can be written. -/
theorem exists_of_fds_announced {k fd j : Nat} {first p : Pollfd}
    (hp : (s.announced k fd first).fds[j + 1]? = some p) :
    ∃ q d, s.fds[j + 1]? = some q ∧ s.clidatas[j]? = some d ∧
      p = if d.fd = fd then q else
        { q with events := q.events ||| ~~~POLLIN ||| POLLOUT } := by
  rw [Server.announced] at hp
  change (first :: _)[j + 1]? = some p at hp
  rw [List.getElem?_cons_succ, List.getElem?_zipWith_eq_some] at hp
  obtain ⟨q, d, hq, hd, rfl⟩ := hp
  rw [List.getElem?_tail] at hq
  exact ⟨q, d, hq, hd, rfl⟩

theorem map_fd_announced (hlength : s.fds.length = s.clidatas.length + 1)
    {first : Pollfd} (hfirst : s.fds.head? = some first) (k fd : Nat) :
    (s.announced k fd first).fds.map Pollfd.fd = s.fds.map Pollfd.fd := by
  have hfds : s.fds = first :: s.fds.tail := (List.cons_head?_tail hfirst).symm
  have htail : s.fds.tail.length = s.clidatas.length := by
    rw [List.length_tail, hlength, Nat.add_sub_cancel]
  rw [hfds, Server.announced, List.map_cons, List.map_cons, List.map_zipWith]
  refine congrArg (first.fd :: ·) ?_
  refine List.ext_getElem? fun j => ?_
  rw [List.getElem?_zipWith, List.getElem?_map]
  cases hj : s.fds.tail[j]? with
  | none => simp
  | some p =>
      have hlt : j < s.clidatas.length := by
        rw [← htail]
        exact (List.getElem?_eq_some_iff.mp hj).1
      rw [List.getElem?_eq_getElem hlt]
      simp only [Option.map_some]
      split <;> rfl

theorem map_fd_clidatas_announced (k fd : Nat) (first : Pollfd) (s : Server) :
    (s.announced k fd first).clidatas.map CliData.fd =
      s.clidatas.map CliData.fd := by
  rw [Server.announced, List.map_map]
  refine List.map_congr_left fun d _ => ?_
  change CliData.fd (if d.fd = fd then d else _) = d.fd
  split <;> rfl

theorem Wf.announced (hs : s.Wf) {k : Nat} {c : CliData} {first : Pollfd}
    (hc : s.clidatas[k]? = some c) (hfirst : s.fds.head? = some first) :
    (s.announced k c.fd first).Wf := by
  have hget := getElem?_announced k c.fd first s
  have hlt : k < s.clidatas.length := (List.getElem?_eq_some_iff.mp hc).1
  have hlength : (s.announced k c.fd first).clidatas.length =
      s.clidatas.length := List.length_map ..
  have hfd := map_fd_clidatas_announced k c.fd first s
  have hfds := map_fd_announced hs.length_fds hfirst k c.fd
  refine ⟨?_, ?_, ?_, ?_, ?_, ?_⟩
  · rw [hfds, hfd]
    exact hs.paired
  · rw [hfd]
    exact hs.distinct
  · intro j d src hd hsrc
    rw [hget, Option.map_eq_some_iff] at hd
    obtain ⟨old, hold, rfl⟩ := hd
    rw [hlength]
    split at hsrc
    · exact hs.others j old src hold hsrc
    · case isFalse hne =>
        obtain rfl : k = src := Option.some.inj hsrc
        refine ⟨?_, hlt⟩
        rintro rfl
        rw [hc] at hold
        cases hold
        exact hne rfl
  · intro j p d hp hd hwaits
    rw [hget, Option.map_eq_some_iff] at hd
    obtain ⟨old, hold, rfl⟩ := hd
    obtain ⟨q, other, hq, hother, rfl⟩ := exists_of_fds_announced hp
    obtain rfl : old = other := Option.some.inj (hold.symm.trans hother)
    split at hwaits
    · case isTrue hsame =>
        rw [if_pos hsame]
        exact hs.asked j q old hq hold hwaits
    · case isFalse hne =>
        rw [if_neg hne]
        change (_ ||| POLLOUT) &&& POLLOUT ≠ 0
        rw [or_and_POLLOUT]
        decide
  · have hsame := congrArg List.length hfds
    rw [List.length_map, List.length_map] at hsame
    rw [hsame]
    exact hs.size
  · intro j hj
    rw [hlength] at hj
    exact hs.later j hj

theorem pending_announced (hs : s.Wf) {k : Nat} {c : CliData}
    (hc : s.clidatas[k]? = some c) (first : Pollfd) {j : Nat}
    (hj : j < s.clidatas.length) :
    (s.announced k c.fd first).pending j =
      if j = k then s.pending j else c.text := by
  have hget := getElem?_announced k c.fd first s
  have htext (src : Nat) :
      ((s.announced k c.fd first).clidatas[src]?).elim []
        CliData.text = (s.clidatas[src]?).elim [] CliData.text := by
    rw [hget]
    cases s.clidatas[src]? with
    | none => rfl
    | some other =>
        change CliData.text (if _ then _ else _) = other.text
        split <;> rfl
  have hd : s.clidatas[j]? = some s.clidatas[j] := List.getElem?_eq_getElem hj
  have hfd : s.clidatas[j].fd = c.fd ↔ j = k := by
    refine ⟨hs.fd_inj hd hc, ?_⟩
    rintro rfl
    rw [hd] at hc
    exact congrArg CliData.fd (Option.some.inj hc)
  rw [pending, hget, hd, pending_eq hd]
  simp only [Option.map_some, Option.elim_some, waits, htext, hfd]
  by_cases hjk : j = k
  · rw [if_pos hjk, if_pos hjk]
  · rw [if_neg hjk, if_neg hjk]
    simp [hc]

/-- What a message of client `k` does to what is due and what waits. -/
structure Received (k : Nat) (data : Bytes) (s next : Server) : Prop where
  wf : next.Wf
  length : next.clidatas.length = s.clidatas.length
  written : next.written = s.written
  due : ∀ j < s.clidatas.length, next.due j =
    if j ≠ k then s.due j ++ data.dropLast else s.due j
  pending : ∀ j < s.clidatas.length, next.pending j =
    if 1 < data.length ∧ j ≠ k then data.dropLast.takeWhile (· ≠ 0)
    else if (s.clidatas[j]?).bind CliData.write_pos = some k then
      data.dropLast.takeWhile (· ≠ 0)
    else s.pending j

theorem Wf.receive (hs : s.Wf) {k : Nat} {c : CliData}
    (hc : s.clidatas[k]? = some c) {data : Bytes} (hdata : data ≠ []) :
    ∃ next, s.receive k c.fd (some data) = some next ∧
      Received k data s next := by
  let r := s.record k data
  have hr : r.Wf := hs.record k data
  have hset : (r.setBuf k c (filled data)).Wf := hr.setBuf hc (filled data)
  have hlength : (r.setBuf k c (filled data)).clidatas.length =
      s.clidatas.length := List.length_set
  have hwaits {j : Nat} (hj : j < s.clidatas.length) :
      (r.setBuf k c (filled data)).pending j =
        if (s.clidatas[j]?).bind CliData.write_pos = some k then
          data.dropLast.takeWhile (· ≠ 0)
        else s.pending j := by
    have hd : s.clidatas[j]? = some s.clidatas[j] :=
      List.getElem?_eq_getElem hj
    have hfill := pending_setBuf (s := r) hc (filled data) hd
    rw [hfill, text_filled hdata, hd]
    rfl
  by_cases hlong : 1 < data.length
  · have hpos : data.length - 1 > 0 := Nat.sub_pos_of_lt hlong
    obtain ⟨first, hfirst⟩ : ∃ first, s.fds.head? = some first := by
      cases hfds : s.fds with
      | nil =>
          have hnone := hs.length_fds
          rw [hfds] at hnone
          cases hnone
      | cons first rest => exact ⟨first, rfl⟩
    have htail : s.fds.tail.length =
        (r.setBuf k c (filled data)).clidatas.length := by
      rw [List.length_tail, hs.length_fds, hlength]
      rfl
    have hk : (r.setBuf k c (filled data)).clidatas[k]? =
        some { c with buf := filled data } := by
      have hget := getElem?_setBuf (s := r) hc (filled data) k
      have hrc : r.clidatas[k]? = some c := hc
      rw [hget, hrc, Option.map_some, if_pos rfl]
    refine ⟨(r.setBuf k c (filled data)).announced k c.fd first, ?_, ?_⟩
    · have hloop := announce_eq k c.fd htail
      change _ = some (Server.announced k c.fd first
        (Server.setBuf k c (filled data) (Server.record k data s)))
      simp only [r, Server.setBuf, Server.record] at hloop
      simp only [Server.receive, Option.bind_eq_bind, Option.bind_some,
        if_neg hdata, hc, if_pos hpos, hfirst, hloop, Server.announced,
        Server.setBuf, Server.record]
    · have hann : (Server.announced k c.fd first
          (r.setBuf k c (filled data))).Wf :=
        hset.announced (c := { c with buf := filled data }) hk hfirst
      refine ⟨hann, ?_, rfl, ?_, ?_⟩
      · rw [Server.announced, List.length_map, hlength]
      · intro j hj
        exact due_record k data hj
      · intro j hj
        have hwait := pending_announced hset hk first (hlength.symm ▸ hj)
        rw [hwait, hwaits hj]
        by_cases hjk : j = k
        · simp [hjk]
        · rw [if_neg hjk, if_pos ⟨hlong, hjk⟩]
          exact text_filled hdata
  · have hshort : ¬data.length - 1 > 0 := by omega
    refine ⟨r.setBuf k c (filled data), ?_, hset, hlength, rfl, ?_, ?_⟩
    · simp only [r, Server.receive, Option.bind_eq_bind, Option.bind_some,
        if_neg hdata, hc, if_neg hshort, Server.setBuf, Server.record]
    · intro j hj
      exact due_record k data hj
    · intro j hj
      have hneg : ¬(1 < data.length ∧ j ≠ k) := fun h => hlong h.1
      rw [hwaits hj, if_neg hneg]

theorem set_eq_self {X : Type} {xs : List X} {i : Nat} {x : X}
    (hx : xs[i]? = some x) : xs.set i x = xs := by
  obtain ⟨hlt, rfl⟩ := List.getElem?_eq_some_iff.mp hx
  exact List.set_getElem_self hlt

theorem zipWith_left {X Y Z : Type} (f : X → Z) {xs : List X} {ys : List Y}
    (hlength : ys.length = xs.length) :
    xs.zipWith (fun x _ => f x) ys = xs.map f := by
  induction xs generalizing ys with
  | nil => rfl
  | cons x xs ih =>
      cases ys with
      | nil => cases hlength
      | cons y ys =>
          rw [List.zipWith_cons_cons, List.map_cons, ih (Nat.succ.inj hlength)]

/-! ### A message goes out, a client comes, a round starts -/

/-- What a write to client `k` does to what it was written and what waits. -/
structure Transmitted (k accepted : Nat) (s next : Server) : Prop where
  wf : next.Wf
  length : next.clidatas.length = s.clidatas.length
  due : next.due = s.due
  written : next.written = Function.update s.written k
    (s.written k ++ (s.pending k).take accepted)
  pending : ∀ j < s.clidatas.length, next.pending j =
    if j = k then [] else s.pending j

theorem Wf.transmit (hs : s.Wf) {k : Nat} {c : CliData} {p : Pollfd}
    (hp : s.fds[k + 1]? = some p) (hc : s.clidatas[k]? = some c)
    (accepted : Nat) :
    ∃ next, s.transmit k accepted p = some next ∧
      Transmitted k accepted s next := by
  have hlt : k < s.clidatas.length := (List.getElem?_eq_some_iff.mp hc).1
  cases hsrc : c.write_pos with
  | none =>
      have hnothing : s.pending k = [] := by
        rw [pending_eq hc, waits, hsrc, Option.elim_none]
      refine ⟨s, by simp [Server.transmit, hc, hsrc], hs, rfl, rfl, ?_, ?_⟩
      · rw [hnothing, List.take_nil, List.append_nil, Function.update_eq_self]
      · intro j _
        split
        · case isTrue hjk =>
            rw [hjk]
            exact hnothing
        · rfl
  | some src =>
      have hsrcLt := (hs.others k c src hc hsrc).2
      have hsource := List.getElem?_eq_getElem hsrcLt
      have htext : s.pending k = s.clidatas[src].text := by
        rw [pending_eq hc, waits, hsrc, Option.elim_some, hsource,
          Option.elim_some]
      let written := Function.update s.written k
        (s.written k ++ s.clidatas[src].text.take accepted)
      let next : Server := { s with
        clidatas := s.clidatas.set k { c with write_pos := none }
        fds := s.fds.set (k + 1)
          { p with events := p.events ||| ~~~POLLOUT ||| POLLIN }
        written := written }
      have hget (j : Nat) : next.clidatas[j]? =
          (s.clidatas[j]?).map fun d =>
            if j = k then { c with write_pos := none } else d := by
        change (s.clidatas.set k _)[j]? = _
        rw [List.getElem?_set]
        by_cases hjk : j = k
        · subst hjk
          simp [hlt]
        · simp [hjk, Ne.symm hjk]
      have hlength : next.clidatas.length = s.clidatas.length :=
        List.length_set
      have hfds : next.fds.map Pollfd.fd = s.fds.map Pollfd.fd := by
        change (s.fds.set (k + 1) _).map Pollfd.fd = _
        rw [List.map_set]
        refine set_eq_self ?_
        rw [List.getElem?_map, hp]
        rfl
      have hclients : next.clidatas.map CliData.fd =
          s.clidatas.map CliData.fd := by
        change (s.clidatas.set k _).map CliData.fd = _
        rw [List.map_set]
        refine set_eq_self ?_
        rw [List.getElem?_map, hc]
        rfl
      refine ⟨next, by simp [next, written, Server.transmit, hc, hsrc, hsource],
        ⟨?_, ?_, ?_, ?_, ?_, ?_⟩, hlength, rfl, ?_, ?_⟩
      · rw [hfds, hclients]
        exact hs.paired
      · rw [hclients]
        exact hs.distinct
      · intro j d other hd hother
        rw [hget, Option.map_eq_some_iff] at hd
        obtain ⟨old, hold, rfl⟩ := hd
        rw [hlength]
        split at hother
        · cases hother
        · exact hs.others j old other hold hother
      · intro j q d hq hd hwaits
        rw [hget, Option.map_eq_some_iff] at hd
        obtain ⟨old, hold, rfl⟩ := hd
        split at hwaits
        · exact absurd rfl hwaits
        · case isFalse hjk =>
            have hne : k + 1 ≠ j + 1 := fun heq => hjk (Nat.succ.inj heq).symm
            have hq' : s.fds[j + 1]? = some q :=
              (List.getElem?_set_ne hne).symm.trans hq
            exact hs.asked j q old hq' hold hwaits
      · change s.fds_size ≤ (s.fds.set (k + 1) _).length
        rw [List.length_set]
        exact hs.size
      · intro j hj
        rw [hlength] at hj
        have hjk : j ≠ k := Nat.ne_of_gt (hlt.trans_le hj)
        refine ⟨(hs.later j hj).1, ?_⟩
        change Function.update s.written k _ j = []
        rw [Function.update_of_ne hjk]
        exact (hs.later j hj).2
      · rw [htext]
      · intro j hj
        have hd : s.clidatas[j]? = some s.clidatas[j] :=
          List.getElem?_eq_getElem hj
        have htexts (src : Nat) : (next.clidatas[src]?).elim [] CliData.text =
            (s.clidatas[src]?).elim [] CliData.text := by
          rw [hget]
          by_cases hk : src = k
          · subst hk
            simp [hc, CliData.text]
          · cases s.clidatas[src]? <;> simp [hk]
        rw [pending, hget, hd, pending_eq hd]
        simp only [Option.map_some, Option.elim_some, waits, htexts]
        by_cases hjk : j = k
        · rw [if_pos hjk, if_pos hjk, Option.elim_none]
        · rw [if_neg hjk, if_neg hjk]

theorem pending_accept (hs : s.Wf) (con_fd : Nat) {j : Nat}
    (hj : j < s.clidatas.length) :
    (s.accept con_fd).pending j = s.pending j := by
  have hd : s.clidatas[j]? = some s.clidatas[j] := List.getElem?_eq_getElem hj
  have hd' : (s.accept con_fd).clidatas[j]? = some s.clidatas[j] := by
    rw [accept, List.getElem?_append_left hj, hd]
  rw [pending_eq hd, pending_eq hd', waits, waits]
  cases hsrc : s.clidatas[j].write_pos with
  | none => rfl
  | some src =>
      have hlt := (hs.others j _ src hd hsrc).2
      rw [Option.elim_some, Option.elim_some, accept,
        List.getElem?_append_left hlt]

theorem pending_accept_new (con_fd : Nat) (s : Server) :
    (s.accept con_fd).pending s.clidatas.length = [] := by
  have hd : (s.accept con_fd).clidatas[s.clidatas.length]? =
      some ⟨List.replicate 64 0, none, con_fd⟩ := by
    simp [accept]
  rw [pending_eq hd]
  rfl

theorem Wf.accept (hs : s.Wf) {con_fd : Nat}
    (hfresh : con_fd ∉ s.fds.map Pollfd.fd) : (s.accept con_fd).Wf := by
  have hold {j : Nat} {d : CliData}
      (hd : (s.accept con_fd).clidatas[j]? = some d)
      (hsome : d.write_pos ≠ none) : s.clidatas[j]? = some d := by
    rw [Server.accept, List.getElem?_append] at hd
    split at hd
    · exact hd
    · rw [List.getElem?_singleton] at hd
      split at hd
      · cases hd
        exact absurd rfl hsome
      · cases hd
  have hlength : (s.accept con_fd).clidatas.length =
      s.clidatas.length + 1 := by
    simp [Server.accept]
  refine ⟨?_, ?_, ?_, ?_, ?_, ?_⟩
  · change (s.fds ++ [_]).map Pollfd.fd =
      s.server_fd :: (s.clidatas ++ [_]).map CliData.fd
    rw [List.map_append, List.map_append, hs.paired]
    rfl
  · change (s.server_fd :: (s.clidatas ++ [_]).map CliData.fd).Nodup
    rw [List.map_append, ← List.cons_append]
    refine hs.distinct.append (List.nodup_singleton _) ?_
    intro fd hmem hnew
    obtain rfl : fd = con_fd := by simpa using hnew
    rw [hs.paired] at hfresh
    exact hfresh hmem
  · intro j d src hd hsrc
    have hother := hs.others j d src (hold hd (by simp [hsrc])) hsrc
    exact ⟨hother.1, hlength ▸ Nat.lt_succ_of_lt hother.2⟩
  · intro j p d hp hd hwaits
    have hd' := hold hd hwaits
    have hlt : j + 1 < s.fds.length := by
      rw [hs.length_fds]
      exact Nat.succ_lt_succ (List.getElem?_eq_some_iff.mp hd').1
    rw [Server.accept, List.getElem?_append_left hlt] at hp
    exact hs.asked j p d hp hd' hwaits
  · change s.fds_size ≤ (s.fds ++ [_]).length
    rw [List.length_append]
    exact hs.size.trans (Nat.le_add_right _ _)
  · intro j hj
    rw [hlength] at hj
    exact hs.later j (Nat.le_of_succ_le hj)

theorem Wf.poll (hs : s.Wf) {revents : List (BitVec 16)}
    (hlength : revents.length = s.fds.length)
    (hnext : s.poll revents = some next) : next.Wf := by
  simp only [Server.poll] at hnext
  split at hnext
  · cases hnext
    have hfd : (s.fds.zipWith (fun p r => { p with revents := r })
        revents).map Pollfd.fd = s.fds.map Pollfd.fd := by
      rw [List.map_zipWith]
      exact zipWith_left _ hlength
    refine ⟨hfd.trans hs.paired, hs.distinct, hs.others, ?_, ?_, hs.later⟩
    · intro j p c hp hc hwaits
      rw [List.getElem?_zipWith] at hp
      cases hold : s.fds[j + 1]? with
      | none => simp [hold] at hp
      | some old =>
          cases hr : revents[j + 1]? with
          | none => simp [hold, hr] at hp
          | some r =>
              rw [hold, hr] at hp
              cases hp
              exact hs.asked j old c hold hc hwaits
    · change s.fds.length ≤ (s.fds.zipWith _ revents).length
      rw [List.length_zipWith, hlength, min_self]
  · cases hnext

/-! ### One call -/

/-- The next place of the two loops. -/
def goto (i : Nat) (read : Bool) (s : Server) : Server :=
  { s with i := i, read := read }

theorem Wf.goto (hs : s.Wf) (i : Nat) (read : Bool) : (s.goto i read).Wf :=
  ⟨hs.paired, hs.distinct, hs.others, hs.asked, hs.size, hs.later⟩

theorem Wf.exists_pollfd (hs : s.Wf) (hlt : s.i < s.fds_size) :
    ∃ p, s.fds[s.i]? = some p :=
  ⟨_, List.getElem?_eq_getElem (hlt.trans_le hs.size)⟩

theorem Wf.input_of_not_reading (hs : s.Wf) (hlt : s.i < s.fds_size)
    (hread : s.read = false) (hnone : s.reading = none) (con_fd : Nat)
    (received : Option Bytes) :
    s.input con_fd received = some (s.goto s.i true) ∨
      s.input con_fd received = some ((s.accept con_fd).goto s.i true) := by
  obtain ⟨p, hp⟩ := hs.exists_pollfd hlt
  simp only [reading, hp] at hnone
  split at hnone
  · case isTrue hcases =>
      simp only [input, hlt, hread, hp, and_self, if_true,
        Option.bind_eq_bind, Option.bind_some]
      by_cases hquiet : p.revents &&& POLLIN = 0
      · rw [if_pos hquiet]
        exact Or.inl rfl
      · rw [if_neg hquiet, if_pos (hcases.resolve_left hquiet)]
        exact Or.inr rfl
  · cases hnone

theorem Wf.input_of_reading (hs : s.Wf) (hlt : s.i < s.fds_size)
    (hread : s.read = false) {k : Nat} (hk : s.reading = some k)
    (con_fd : Nat) (received : Option Bytes) :
    ∃ c, s.clidatas[k]? = some c ∧ s.input con_fd received =
      (s.receive k c.fd received).map fun t => t.goto t.i true := by
  obtain ⟨p, hp⟩ := hs.exists_pollfd hlt
  simp only [reading, hp] at hk
  split at hk
  · cases hk
  · case isFalse hcases =>
      obtain ⟨hready, hclient⟩ := not_or.mp hcases
      obtain ⟨j, c, hi, hc, hcp⟩ := hs.client hp hclient
      obtain rfl : s.i - 1 = k := Option.some.inj hk
      have hj : s.i - 1 = j := by omega
      rw [hj]
      refine ⟨c, hc, ?_⟩
      simp only [input, hlt, hread, hp, and_self, if_true,
        Option.bind_eq_bind, Option.bind_some]
      rw [if_neg hready, if_neg hclient, hj, hcp]
      cases s.receive j p.fd received <;> rfl

theorem Wf.output_of_not_writing (hs : s.Wf) (hlt : s.i < s.fds_size)
    (hread : s.read = true) (hnone : s.writing = none) (accepted : Nat) :
    s.output accepted = some (s.goto (s.i + 1) false) := by
  obtain ⟨p, hp⟩ := hs.exists_pollfd hlt
  simp only [writing, hp] at hnone
  split at hnone
  · case isTrue hcases =>
      simp only [output, hlt, hread, hp, and_self, if_true,
        Option.bind_eq_bind, Option.bind_some]
      rw [if_pos hcases]
      rfl
  · cases hnone

theorem Wf.output_of_writing (hs : s.Wf) (hlt : s.i < s.fds_size)
    (hread : s.read = true) {k : Nat} (hk : s.writing = some k)
    (accepted : Nat) :
    k < s.clidatas.length ∧ ∃ next, s.output accepted = some next ∧
      Transmitted k accepted s next := by
  obtain ⟨p, hp⟩ := hs.exists_pollfd hlt
  simp only [writing, hp] at hk
  split at hk
  · cases hk
  · case isFalse hcases =>
      obtain ⟨j, c, hi, hc, -⟩ := hs.client hp (not_or.mp hcases).2
      obtain rfl : s.i - 1 = k := Option.some.inj hk
      have hj : s.i - 1 = j := by omega
      rw [hj]
      obtain ⟨t, ht, hsent⟩ := hs.transmit (hi ▸ hp) hc accepted
      refine ⟨(List.getElem?_eq_some_iff.mp hc).1, t.goto (t.i + 1) false, ?_,
        ?_⟩
      · simp only [output, hlt, hread, hp, and_self, if_true,
          Option.bind_eq_bind, Option.bind_some]
        rw [if_neg hcases, hj, ht]
        rfl
      · exact ⟨hsent.wf.goto _ _, hsent.length, hsent.due, hsent.written,
          hsent.pending⟩

theorem receive_nothing (k fd : Nat) (s : Server) :
    s.receive k fd (some []) = none := by
  simp [receive]

/-- `recv` is only survived with a byte or more. -/
theorem Wf.input_of_reading_some (hs : s.Wf) (hlt : s.i < s.fds_size)
    (hread : s.read = false) {k : Nat} (hk : s.reading = some k)
    (con_fd : Nat) (received : Option Bytes)
    (hnext : s.input con_fd received = some next) :
    ∃ data ∈ received, data ≠ [] ∧ Received k data s next := by
  obtain ⟨c, hc, hinput⟩ :=
    hs.input_of_reading hlt hread hk con_fd received
  rw [hinput] at hnext
  cases received with
  | none => cases hnext
  | some data =>
      by_cases hdata : data = []
      · rw [hdata, receive_nothing] at hnext
        cases hnext
      · obtain ⟨t, ht, hreceived⟩ := hs.receive hc hdata
        rw [ht] at hnext
        cases hnext
        exact ⟨data, rfl, hdata, hreceived.wf.goto _ _, hreceived.length,
          hreceived.written, hreceived.due, hreceived.pending⟩

theorem Wf.step (hs : s.Wf) {event : Event} (hallowed : s.allowed event)
    (hnext : s.step event = some next) : next.Wf := by
  cases event with
  | poll revents => exact hs.poll hallowed.2 hnext
  | input con_fd received =>
      obtain ⟨hlt, hread, hfresh, -⟩ := hallowed
      change s.input con_fd received = some next at hnext
      cases hk : s.reading with
      | none =>
          obtain heq | heq :=
            hs.input_of_not_reading hlt hread hk con_fd received
          · rw [heq] at hnext
            cases hnext
            exact hs.goto _ _
          · rw [heq] at hnext
            cases hnext
            exact (hs.accept hfresh).goto _ _
      | some k =>
          obtain ⟨_, _, _, hreceived⟩ :=
            hs.input_of_reading_some hlt hread hk con_fd received hnext
          exact hreceived.wf
  | output accepted =>
      obtain ⟨hlt, hread, -⟩ := hallowed
      change s.output accepted = some next at hnext
      cases hk : s.writing with
      | none =>
          rw [hs.output_of_not_writing hlt hread hk accepted] at hnext
          cases hnext
          exact hs.goto _ _
      | some k =>
          obtain ⟨-, t, ht, hsent⟩ :=
            hs.output_of_writing hlt hread hk accepted
          rw [ht] at hnext
          cases hnext
          exact hsent.wf

/-! ### Whole runs -/

theorem Wf.delivers (hs : s.Wf)
    (hexact : ∀ j < s.clidatas.length, s.written j ++ s.pending j = s.due j) :
    s.Delivers :=
  ⟨hexact, hs.asked⟩

theorem Delivers.accept (hd : s.Delivers) (hs : s.Wf) {con_fd : Nat}
    (hfresh : con_fd ∉ s.fds.map Pollfd.fd) :
    (s.accept con_fd).Delivers := by
  refine (hs.accept hfresh).delivers fun j hj => ?_
  have hlength : (s.accept con_fd).clidatas.length =
      s.clidatas.length + 1 := by
    simp [Server.accept]
  by_cases hnew : j = s.clidatas.length
  · obtain ⟨hsent, hwritten⟩ := hs.later j hnew.ge
    have hdue : s.due j = [] := by rw [due, hsent, List.flatMap_nil]
    change s.written j ++ _ = s.due j
    rw [hdue, hwritten, hnew, pending_accept_new, List.append_nil]
  · have hold : j < s.clidatas.length := by omega
    rw [pending_accept hs con_fd hold]
    exact hd.exact j hold

end Server

end ChatServer

end LinuxTest
