import Krypto.Cli

/-! `read_stdin_secret` down to its buffers: how many bytes each holds, and what is
left in the memory that they give back. -/

namespace Krypto.Cli
open Effect

/-! ## Buffers -/

structure Vec where
  data : Bytes
  capacity : Nat
  fits : data.length ≤ capacity

/-- How much the allocator gives when it is asked for `size`, after what was given back to it. -/
structure Allocator where
  capacity : (freed : List Bytes) → (size : Nat) → Nat
  le_capacity : ∀ freed size, size ≤ capacity freed size

def Allocator.tight : Allocator := ⟨fun _ size => size, fun _ size => Nat.le_refl size⟩

namespace Vec

def new : Vec := ⟨[], 0, Nat.le_refl 0⟩

def withCapacity (A : Allocator) (freed : List Bytes) (size : Nat) : Vec :=
  ⟨[], A.capacity freed size, Nat.zero_le _⟩

def wiped (self : Vec) : Bytes := List.replicate self.capacity 0

/-- With what was given back: a buffer that grows by itself gives its block back as it is. -/
def extendFromSlice (A : Allocator) (freed : List Bytes) (self : Vec) (bytes : Bytes) :
    Vec × List Bytes :=
  if h : self.data.length + bytes.length ≤ self.capacity then
    (⟨self.data ++ bytes, self.capacity, List.length_append.trans_le h⟩, freed)
  else
    let size := max (self.data.length + bytes.length) (2 * self.capacity)
    let fits : (self.data ++ bytes).length ≤ A.capacity freed size :=
      List.length_append.trans_le ((Nat.le_max_left _ _).trans (A.le_capacity freed size))
    (⟨self.data ++ bytes, A.capacity freed size, fits⟩, freed ++ [self.data])

end Vec

/-! ## The loop -/

def CHUNK : Nat := 64 * 1024

/-- What `stdin.read` into the chunk gives: how much of the chunk it has filled, and with what. -/
inductive Read where
  | filled (bytes : { b : Bytes // b.length ≤ CHUNK })
  | interrupted
  | failed (e : IoError)

/-- The locals of `read_stdin_secret`, both in `Zeroizing`, with what is left in the blocks that
were given back, and the calls of `extend_from_slice` that were made. -/
structure Reader where
  chunk : Fixed CHUNK
  buf : Vec
  freed : List Bytes
  extensions : List (Vec × Bytes)

inductive Progress where
  | reading (r : Reader)
  | done (result : Outcome Fail SecretBuf) (freed : List Bytes) (extensions : List (Vec × Bytes))

namespace Reader

def start : Reader := ⟨.zero CHUNK, .new, [], []⟩

def fillChunk (self : Reader) (bytes : { b : Bytes // b.length ≤ CHUNK }) : Reader :=
  let chunk : Fixed CHUNK := ⟨bytes.1 ++ self.chunk.toList.drop bytes.1.length, by
    have hle := bytes.2
    rw [List.length_append, List.length_drop, Fixed.length_eq]
    omega⟩
  { self with chunk }

def extend (A : Allocator) (self : Reader) (bytes : Bytes) : Reader :=
  let (buf, freed) := self.buf.extendFromSlice A self.freed bytes
  { self with buf, freed, extensions := self.extensions ++ [(self.buf, bytes)] }

/-- The bigger buffer takes what the old one holds, which is wiped when it is assigned to. -/
def grow (A : Allocator) (self : Reader) (size : Nat) : Reader :=
  let bigger := { self with buf := .withCapacity A self.freed size }.extend A self.buf.data
  { bigger with freed := bigger.freed ++ [self.buf.wiped] }

def store (A : Allocator) (self : Reader) (bytes : Bytes) : Reader :=
  let len := self.buf.data.length + bytes.length
  let self := if self.buf.capacity < len then self.grow A (max len (2 * self.buf.capacity)) else self
  self.extend A bytes

/-- The end: `SecretBuf::from_vec` wipes the buffer it is given, and on an error its owner does;
the chunk goes after it. -/
def finish (self : Reader) (result : Outcome Fail SecretBuf) : Progress :=
  .done result (self.freed ++ [self.buf.wiped, List.replicate CHUNK 0]) self.extensions

end Reader

def unreadable (e : IoError) : Fail := .io ("reading stdin failed: " ++ e.message)

def turn (A : Allocator) (locked : Outcome Error Unit) (self : Reader) : Read → Progress
  | .interrupted => .reading self
  | .failed e => self.finish (.err (unreadable e))
  | .filled bytes =>
    let self := self.fillChunk bytes
    if bytes.1 = [] then self.finish ((locked.mapErr .krypto) >>= fun _ => .ok self.buf.data)
    else if MAX_STDIN < self.buf.data.length + bytes.1.length then self.finish (.err tooMuch)
    else .reading (self.store A bytes.1)

def readSecret (A : Allocator) (locked : Outcome Error Unit) (self : Reader) : List Read → Progress
  | [] => .reading self
  | x :: rest =>
    match turn A locked self x with
    | .reading self => readSecret A locked self rest
    | .done result freed extensions => .done result freed extensions

def Progress.result : Progress → Option (Outcome Fail SecretBuf)
  | .reading _ => none
  | .done result _ _ => some result

def Progress.freed : Progress → List Bytes
  | .reading r => r.freed
  | .done _ freed _ => freed

def Progress.extensions : Progress → List (Vec × Bytes)
  | .reading r => r.extensions
  | .done _ _ extensions => extensions

/-! ## What every turn keeps -/

/-- No byte of the input is left in what was given back, and no buffer grew by itself. -/
structure Tidy (freed : List Bytes) (extensions : List (Vec × Bytes)) : Prop where
  wiped : ∀ block ∈ freed, ∀ b ∈ block, b = 0
  covered : ∀ e ∈ extensions, e.1.data.length + e.2.length ≤ e.1.capacity
  bounded : ∀ e ∈ extensions, e.1.data.length + e.2.length ≤ MAX_STDIN

structure Reader.Holds (r : Reader) (got : Bytes) : Prop where
  data : r.buf.data = got
  fits : got.length ≤ MAX_STDIN
  tidy : Tidy r.freed r.extensions

theorem Tidy.free {freed more : List Bytes} {extensions : List (Vec × Bytes)}
    (h : Tidy freed extensions) (hmore : ∀ block ∈ more, ∀ b ∈ block, b = 0) :
    Tidy (freed ++ more) extensions := by
  refine ⟨fun block hblock => ?_, h.covered, h.bounded⟩
  rcases List.mem_append.mp hblock with hblock | hblock
  · exact h.wiped block hblock
  · exact hmore block hblock

theorem Tidy.extend {freed : List Bytes} {extensions : List (Vec × Bytes)} {buf : Vec} {bytes : Bytes}
    (h : Tidy freed extensions) (hcovered : buf.data.length + bytes.length ≤ buf.capacity)
    (hbounded : buf.data.length + bytes.length ≤ MAX_STDIN) :
    Tidy freed (extensions ++ [(buf, bytes)]) := by
  refine ⟨h.wiped, fun e he => ?_, fun e he => ?_⟩
  all_goals rcases List.mem_append.mp he with he | he
  · exact h.covered e he
  · rw [List.mem_singleton.mp he]
    exact hcovered
  · exact h.bounded e he
  · rw [List.mem_singleton.mp he]
    exact hbounded

theorem zero_of_mem_wiped {buf : Vec} {b : UInt8} (h : b ∈ buf.wiped) : b = 0 :=
  List.eq_of_mem_replicate h

section Turns
variable {A : Allocator} {locked : Outcome Error Unit} {self : Reader} {got : Bytes}

theorem extendFromSlice_of_le {freed : List Bytes} {buf : Vec} {bytes : Bytes}
    (h : buf.data.length + bytes.length ≤ buf.capacity) :
    buf.extendFromSlice A freed bytes =
      (⟨buf.data ++ bytes, buf.capacity, List.length_append.trans_le h⟩, freed) := dif_pos h

theorem Reader.Holds.extend {bytes : Bytes} (h : self.Holds got)
    (hcovered : got.length + bytes.length ≤ self.buf.capacity)
    (hbounded : got.length + bytes.length ≤ MAX_STDIN) :
    (self.extend A bytes).Holds (got ++ bytes) := by
  obtain rfl := h.data
  unfold Reader.extend
  rw [extendFromSlice_of_le hcovered]
  exact ⟨rfl, List.length_append.trans_le hbounded, h.tidy.extend hcovered hbounded⟩

theorem Reader.Holds.grow {size : Nat} (h : self.Holds got) (hsize : got.length ≤ size) :
    (self.grow A size).Holds got ∧ size ≤ (self.grow A size).buf.capacity := by
  obtain rfl := h.data
  have hle : size ≤ A.capacity self.freed size := A.le_capacity _ _
  let fresh : Reader := { self with buf := .withCapacity A self.freed size }
  have hfresh : fresh.Holds [] := ⟨rfl, Nat.zero_le _, h.tidy⟩
  have hcovered : ([] : Bytes).length + self.buf.data.length ≤ fresh.buf.capacity := by
    rw [List.length_nil, Nat.zero_add]
    exact hsize.trans hle
  have hbounded : ([] : Bytes).length + self.buf.data.length ≤ MAX_STDIN := by
    rw [List.length_nil, Nat.zero_add]
    exact h.fits
  have hbigger := hfresh.extend (A := A) hcovered hbounded
  have hcapacity : (fresh.extend A self.buf.data).buf.capacity = A.capacity self.freed size := by
    unfold Reader.extend
    rw [extendFromSlice_of_le hcovered]
    rfl
  refine ⟨⟨hbigger.data, h.fits, hbigger.tidy.free fun block hblock b hb => ?_⟩, ?_⟩
  · rw [List.mem_singleton.mp hblock] at hb
    exact zero_of_mem_wiped hb
  · exact hle.trans_eq hcapacity.symm

/-- A chunk goes behind what was read, in a buffer that it fits. -/
theorem Reader.Holds.store {bytes : Bytes} (h : self.Holds got)
    (hbounded : got.length + bytes.length ≤ MAX_STDIN) :
    (self.store A bytes).Holds (got ++ bytes) := by
  unfold Reader.store
  rw [h.data]
  dsimp only
  split_ifs with hsmall
  · have hsize : got.length ≤ max (got.length + bytes.length) (2 * self.buf.capacity) := by omega
    obtain ⟨hgrown, hcapacity⟩ := h.grow (A := A) hsize
    exact hgrown.extend ((Nat.le_max_left _ _).trans hcapacity) hbounded
  · exact h.extend (Nat.le_of_not_lt hsmall) hbounded

theorem Reader.Holds.finish (h : self.Holds got) (result : Outcome Fail SecretBuf) :
    Tidy (self.finish result).freed (self.finish result).extensions := by
  apply h.tidy.free
  intro block hblock b hb
  rcases List.mem_cons.mp hblock with rfl | hblock
  · exact zero_of_mem_wiped hb
  · rw [List.mem_singleton.mp hblock] at hb
    exact List.eq_of_mem_replicate hb

theorem Reader.Holds.fillChunk (h : self.Holds got) (bytes : { b : Bytes // b.length ≤ CHUNK }) :
    (self.fillChunk bytes).Holds got := ⟨h.data, h.fits, h.tidy⟩

def Read.Goes : Read → Prop
  | .filled bytes => bytes.1 ≠ []
  | .interrupted => True
  | .failed _ => False

def Read.bytes : Read → Bytes
  | .filled bytes => bytes.1
  | .interrupted | .failed _ => []

def total (reads : List Read) : Bytes := reads.flatMap Read.bytes

theorem total_cons (x : Read) (reads : List Read) : total (x :: reads) = x.bytes ++ total reads := rfl

variable (A locked) in
theorem turn_goes {x : Read} (h : self.Holds got) (hx : x.Goes)
    (hle : got.length + x.bytes.length ≤ MAX_STDIN) :
    ∃ r, turn A locked self x = .reading r ∧ r.Holds (got ++ x.bytes) := by
  cases x with
  | failed e => exact hx.elim
  | interrupted => exact ⟨self, rfl, by rwa [Read.bytes, List.append_nil]⟩
  | filled bytes =>
    have hfits : ¬MAX_STDIN < (self.fillChunk bytes).buf.data.length + bytes.1.length := by
      rw [(h.fillChunk bytes).data]
      exact Nat.not_lt.mpr hle
    refine ⟨_, ?_, (h.fillChunk bytes).store (A := A) hle⟩
    have hne : bytes.1 ≠ [] := hx
    unfold turn
    simp only [if_neg hne, if_neg hfits]
    rfl

variable (A locked) in
theorem readSecret_goes {before : List Read} (h : self.Holds got) (hbefore : ∀ x ∈ before, x.Goes)
    (hle : (got ++ total before).length ≤ MAX_STDIN) : ∃ r, r.Holds (got ++ total before) ∧
      ∀ after, readSecret A locked self (before ++ after) = readSecret A locked r after := by
  induction before generalizing self got with
  | nil => exact ⟨self, by rwa [total, List.flatMap_nil, List.append_nil], fun _ => rfl⟩
  | cons x before ih =>
    rw [total_cons, ← List.append_assoc] at hle ⊢
    have hone : got.length + x.bytes.length ≤ MAX_STDIN := by
      rw [List.length_append, List.length_append] at hle
      omega
    obtain ⟨r, hturn, hr⟩ := turn_goes A locked h (hbefore x (List.mem_cons_self ..)) hone
    obtain ⟨r', hr', hrest⟩ := ih hr (fun y hy => hbefore y (List.mem_cons_of_mem x hy)) hle
    refine ⟨r', hr', fun after => ?_⟩
    rw [List.cons_append, readSecret, hturn]
    exact hrest after

def Read.Stops (n : Nat) : Read → Prop
  | .filled bytes => bytes.1 = [] ∨ MAX_STDIN < n + bytes.1.length
  | .interrupted => False
  | .failed _ => True

theorem goes_or_stops (reads : List Read) (n : Nat) (hn : n ≤ MAX_STDIN) :
    ((∀ x ∈ reads, x.Goes) ∧ n + (total reads).length ≤ MAX_STDIN) ∨
      ∃ before x after, reads = before ++ x :: after ∧ (∀ y ∈ before, y.Goes) ∧
        n + (total before).length ≤ MAX_STDIN ∧ x.Stops (n + (total before).length) := by
  induction reads generalizing n with
  | nil => exact .inl ⟨fun x hx => absurd hx List.not_mem_nil, hn⟩
  | cons x reads ih =>
    by_cases hx : x.Goes ∧ n + x.bytes.length ≤ MAX_STDIN
    · have hlength (more : List Read) :
          n + x.bytes.length + (total more).length = n + (total (x :: more)).length := by
        rw [total_cons, List.length_append, Nat.add_assoc]
      rcases ih _ hx.2 with ⟨hall, hle⟩ | ⟨before, y, after, rfl, hbefore, hle, hstops⟩
      · refine .inl ⟨List.forall_mem_cons.mpr ⟨hx.1, hall⟩, ?_⟩
        rwa [hlength] at hle
      · rw [hlength] at hle hstops
        exact .inr ⟨x :: before, y, after, rfl, List.forall_mem_cons.mpr ⟨hx.1, hbefore⟩, hle, hstops⟩
    · refine .inr ⟨[], x, reads, rfl, fun y hy => absurd hy List.not_mem_nil, hn, ?_⟩
      cases x with
      | interrupted => exact absurd ⟨trivial, hn⟩ hx
      | failed e => trivial
      | filled bytes =>
        by_cases hempty : bytes.1 = []
        · exact .inl hempty
        · exact .inr (Nat.lt_of_not_le fun hle => hx ⟨hempty, hle⟩)

variable (A locked) in
theorem turn_stops {x : Read} (h : self.Holds got) (hx : x.Stops got.length) :
    ∃ r : Reader, ∃ result, turn A locked self x = r.finish result ∧ r.Holds got ∧
      r.extensions = self.extensions := by
  cases x with
  | interrupted => exact hx.elim
  | failed e => exact ⟨self, _, rfl, h, rfl⟩
  | filled bytes =>
    have hfull := h.fillChunk bytes
    unfold turn
    dsimp only
    rw [hfull.data]
    split_ifs with hempty hover
    · exact ⟨_, _, rfl, hfull, rfl⟩
    · exact ⟨_, _, rfl, hfull, rfl⟩
    · rcases hx with hx | hx
      · exact absurd hx hempty
      · exact absurd hx hover

theorem start_holds : Reader.start.Holds [] := by
  refine ⟨rfl, Nat.zero_le _, ⟨fun block hblock => ?_, fun e he => ?_, fun e he => ?_⟩⟩
  · exact absurd hblock List.not_mem_nil
  · exact absurd he List.not_mem_nil
  · exact absurd he List.not_mem_nil

theorem readSecret_tidy (reads : List Read) : Tidy (readSecret A locked .start reads).freed
    (readSecret A locked .start reads).extensions := by
  have hzero : (0 : Nat) ≤ MAX_STDIN := Nat.zero_le _
  rcases goes_or_stops reads 0 hzero with ⟨hall, hle⟩ | ⟨before, x, after, rfl, hbefore, hle, hstops⟩
  · rw [Nat.zero_add] at hle
    obtain ⟨r, hr, hrun⟩ := readSecret_goes A locked start_holds hall hle
    have hrun := hrun []
    rw [List.append_nil] at hrun
    rw [hrun]
    exact hr.tidy
  · rw [Nat.zero_add] at hle hstops
    obtain ⟨r, hr, hrun⟩ := readSecret_goes A locked start_holds hbefore hle
    obtain ⟨r', result, hturn, hr', -⟩ := turn_stops A locked hr hstops
    rw [hrun, readSecret, hturn]
    exact hr'.finish result

/-- `read_stdin_secret` ends in what was read, in order, or in the error that it owes its caller;
no buffer on the way grows by itself, and nothing that was read is left in one that was given
back. -/
theorem read_stdin_secret_exact (A : Allocator) (locked : Outcome Error Unit) :
    (∀ reads, Tidy (readSecret A locked .start reads).freed
      (readSecret A locked .start reads).extensions) ∧
    (∀ reads, ((∀ x ∈ reads, x.Goes) ∧ (total reads).length ≤ MAX_STDIN) ∨
      ∃ before x after, reads = before ++ x :: after ∧ (∀ y ∈ before, y.Goes) ∧
        (total before).length ≤ MAX_STDIN ∧ x.Stops (total before).length) ∧
    ∀ before, (∀ x ∈ before, x.Goes) → (total before).length ≤ MAX_STDIN →
      (∃ r, readSecret A locked .start before = .reading r ∧ r.buf.data = total before) ∧
      (∀ after, (readSecret A locked .start (before ++ .filled ⟨[], Nat.zero_le _⟩ :: after)).result =
        some (locked.mapErr .krypto >>= fun _ => .ok (total before))) ∧
      (∀ e after, (readSecret A locked .start (before ++ .failed e :: after)).result =
        some (.err (unreadable e))) ∧
      ∀ bytes after, bytes.1 ≠ [] → MAX_STDIN < (total before).length + bytes.1.length →
        (readSecret A locked .start (before ++ .filled bytes :: after)).result = some (.err tooMuch) ∧
        (readSecret A locked .start (before ++ .filled bytes :: after)).extensions =
          (readSecret A locked .start before).extensions := by
  refine ⟨readSecret_tidy, fun reads => ?_, fun before hbefore hle => ?_⟩
  · have h := goes_or_stops reads 0 (Nat.zero_le _)
    simpa only [Nat.zero_add] using h
  obtain ⟨r, hr, hrun⟩ := readSecret_goes A locked start_holds hbefore hle
  rw [List.nil_append] at hr
  have hbefore' : readSecret A locked .start before = .reading r := by
    have hrun := hrun []
    rwa [List.append_nil] at hrun
  refine ⟨⟨r, hbefore', hr.data⟩, fun after => ?_, fun e after => ?_, fun bytes after hne hover => ?_⟩
  · rw [hrun, readSecret, turn, if_pos rfl, (hr.fillChunk _).data]
    rfl
  · rw [hrun]
    rfl
  · have hover : MAX_STDIN < (r.fillChunk bytes).buf.data.length + bytes.1.length := by
      rw [(hr.fillChunk bytes).data]
      exact hover
    have hturn : turn A locked r (.filled bytes) = (r.fillChunk bytes).finish (.err tooMuch) := by
      unfold turn
      simp only [if_neg hne, if_pos hover]
    rw [hrun, readSecret, hturn, hbefore']
    exact ⟨rfl, rfl⟩

def sampleReads : List Read := [.filled ⟨[1, 2], by decide⟩, .interrupted, .filled ⟨[3], by decide⟩]

def fullReads : List Read :=
  List.replicate 1024 (.filled ⟨List.replicate CHUNK 7, List.length_replicate.le⟩)

-- over any chunk: the bytes of a whole one are too many to count
theorem total_replicate (n : Nat) {bytes : { b : Bytes // b.length ≤ CHUNK }} (h : bytes.1.length = CHUNK) :
    (total (List.replicate n (.filled bytes))).length = n * CHUNK := by
  have hread : (Read.filled bytes).bytes.length = CHUNK := h
  unfold total
  rw [List.flatMap_replicate, List.length_flatten, List.map_replicate, List.sum_replicate_nat, hread]

theorem total_fullReads : (total fullReads).length = MAX_STDIN := total_replicate 1024 List.length_replicate

-- two buffers that grow, and the byte that is too much
theorem read_stdin_secret_exact_sample :
    (readSecret .tight (.ok ()) .start (sampleReads ++ [.filled ⟨[], Nat.zero_le _⟩])).result =
      some (.ok [1, 2, 3]) ∧
    (readSecret .tight (.ok ()) .start sampleReads).freed = [[], [0, 0]] ∧
    (readSecret .tight (.ok ()) .start sampleReads).extensions.map
        (fun e => (e.1.data, e.1.capacity, e.2)) =
      [([], 2, []), ([], 2, [1, 2]), ([], 4, [1, 2]), ([1, 2], 4, [3])] ∧
    (readSecret .tight (.ok ()) .start (fullReads ++ [.filled ⟨[1], by decide⟩])).result =
      some (.err tooMuch) ∧
    (readSecret .tight (.ok ()) .start (fullReads ++ [.filled ⟨[1], by decide⟩])).extensions =
      (readSecret .tight (.ok ()) .start fullReads).extensions := by
  obtain ⟨-, -, hruns⟩ := read_stdin_secret_exact .tight (.ok ())
  have hsample : ∀ x ∈ sampleReads, x.Goes := by
    refine List.forall_mem_cons.mpr ⟨List.cons_ne_nil _ _, List.forall_mem_cons.mpr ⟨trivial, ?_⟩⟩
    exact List.forall_mem_singleton.mpr (List.cons_ne_nil _ _)
  have hfull : ∀ x ∈ fullReads, x.Goes := by
    intro x hx
    obtain rfl := List.eq_of_mem_replicate hx
    exact List.cons_ne_nil _ _
  obtain ⟨-, hend, -, -⟩ := hruns sampleReads hsample (by decide)
  obtain ⟨-, -, -, hover⟩ := hruns fullReads hfull total_fullReads.le
  obtain ⟨hresult, hextensions⟩ := hover ⟨[1], by decide⟩ [] (List.cons_ne_nil _ _)
    (by rw [total_fullReads]; exact Nat.lt_succ_self _)
  exact ⟨hend [], rfl, rfl, hresult, hextensions⟩

/-- The loop of the command, which leaves the buffers out, ends as this one does on the reads it
made; its fuel is enough. -/
theorem readChunks_reads {E : shell.Env} {fuel : Nat} {held : Growing} {s s' : Shell}
    {result : Outcome Fail Bytes} (h : Ends shell E (readChunks fuel held) s result s')
    (hself : self.Holds held.buf) (hfuel : MAX_STDIN + 1 < fuel + held.buf.length) :
    ∃ reads, (readSecret A (.ok ()) self reads).result = some result := by
  -- on the fuel: every chunk but the last holds a byte, so it outlasts the input
  induction fuel generalizing held s self with
  | zero =>
    have hfits := hself.fits
    omega
  | succ fuel ih =>
    cases h with
    | step c hc hrest =>
      rcases c with e | n
      · obtain ⟨rfl, -⟩ := ends_done hrest
        exact ⟨[.failed e], rfl⟩
      generalize hchunk : s.stdin.take (min (64 * 1024) (n + 1)) = chunk
      have hlength : chunk.length ≤ CHUNK := by
        rw [← hchunk, List.length_take]
        exact (Nat.min_le_left _ _).trans (Nat.min_le_left _ _)
      have hrest : Ends shell E (afterChunk fuel held (.ok chunk))
          { s with stdin := s.stdin.drop (min (64 * 1024) (n + 1)) } result s' := by
        subst hchunk
        exact hrest
      cases chunk with
      | nil =>
        obtain ⟨rfl, -⟩ := ends_done hrest
        refine ⟨[.filled ⟨[], Nat.zero_le _⟩], ?_⟩
        rw [readSecret, turn, if_pos rfl, (hself.fillChunk _).data]
        rfl
      | cons b chunk =>
        have hne : b :: chunk ≠ [] := List.cons_ne_nil b chunk
        -- the chunk is too much, or it goes behind what is held
        by_cases hover : MAX_STDIN < held.buf.length + (b :: chunk).length
        · have hextend : held.extend (b :: chunk) = .err tooMuch := if_pos hover
          have hrest : Ends shell E (lift (held.extend (b :: chunk)) >>= readChunks fuel) _ result s' :=
            hrest
          rw [hextend] at hrest
          obtain ⟨rfl, -⟩ := ends_done hrest
          refine ⟨[.filled ⟨b :: chunk, hlength⟩], ?_⟩
          have hover : MAX_STDIN < (self.fillChunk ⟨b :: chunk, hlength⟩).buf.data.length +
              (b :: chunk).length := by
            rw [(hself.fillChunk _).data]
            exact hover
          unfold readSecret turn
          simp only [if_neg hne, if_pos hover]
          rfl
        · obtain ⟨capacity, hextend⟩ := Growing.extend_ok (Nat.le_of_not_lt hover)
          have hrest : Ends shell E (lift (held.extend (b :: chunk)) >>= readChunks fuel) _ result s' :=
            hrest
          rw [hextend] at hrest
          obtain ⟨r, hturn, hr⟩ := turn_goes A (.ok ())
            (x := .filled ⟨b :: chunk, hlength⟩) hself hne (Nat.le_of_not_lt hover)
          have hlonger : MAX_STDIN + 1 < fuel + (held.buf ++ b :: chunk).length := by
            rw [List.length_append, List.length_cons]
            omega
          obtain ⟨reads, hreads⟩ := ih hrest hr hlonger
          refine ⟨.filled ⟨b :: chunk, hlength⟩ :: reads, ?_⟩
          rw [readSecret, hturn]
          exact hreads

end Turns
end Krypto.Cli
