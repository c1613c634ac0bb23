import PiggyOs.Macros
import PiggyOs.TarNumbers
import PiggyOs.Transition

/-! Unpacking the initial ramdisk: the walk over the headers of the tar archive in memory, what it creates,
and the pages that it gives back on the way. -/
namespace PiggyOs.Initrd
open Transition

abbrev Mem := ℕ → BitVec 8

def highVma : ℕ := 0xffff800000000000

inductive Kind
  | regular | directory
  deriving DecidableEq, Repr

/-- The calls into the file system: no node is the null pointer, and the result of `write` is its `ssize_t`. -/
structure Vfs (σ ν : Type) where
  create : σ → Mem → Kind → Option ν × σ
  write : σ → ν → Mem → ℕ → BitVec 64 × σ
  stamp : σ → ν → (size mtime : ℕ) → σ

structure State (σ : Type) where
  mem : Mem
  vfs : σ
  currentFile : ℕ
  nameOverride : Option ℕ
  fileCount : ℕ

def typeNormal : BitVec 8 := 0x30
def typeDirectory : BitVec 8 := 0x35
def typeGnuLongPath : BitVec 8 := 0x4c

def isUstar (mem : Mem) (file : ℕ) : Bool :=
  (List.range 5).map (fun i => mem (file + 257 + i)) = [0x75, 0x73, 0x74, 0x61, 0x72]

/-- `!strcmp(name, "./")` -/
def isDotSlash (mem : Mem) (name : ℕ) : Bool := mem name = 0x2e ∧ mem (name + 1) = 0x2f ∧ mem (name + 2) = 0

def fieldSize (mem : Mem) (file : ℕ) : ℕ := (oct2int (fun i => mem (file + 124 + i)) 12).1.toNat

def fieldMtime (mem : Mem) (file : ℕ) : ℕ := (oct2int (fun i => mem (file + 136 + i)) 12).1.toNat

section Loop
variable {σ ν : Type} (V : Vfs σ ν)

/-- The switch over the types, and the stamps of a new node. No result is a panic. -/
def unpackFile (s : State σ) (name size mtime : ℕ) : Option (State σ) :=
  let type := s.mem (s.currentFile + 156)
  if type = typeNormal then
    match V.create s.vfs (fun i => s.mem (name + i)) .regular with
    | (none, _) => none
    | (some node, vfs) =>
      let written := V.write vfs node (fun i => s.mem (s.currentFile + 512 + i)) size
      if written.1 ≠ BitVec.ofNat 64 size then none
      else some { s with vfs := V.stamp written.2 node size mtime, fileCount := s.fileCount + 1 }
  else if type = typeDirectory then
    match V.create s.vfs (fun i => s.mem (name + i)) .directory with
    | (none, _) => none
    | (some node, vfs) => some { s with vfs := V.stamp vfs node size mtime, fileCount := s.fileCount + 1 }
  else if type = typeGnuLongPath then
    some { s with nameOverride := some (s.currentFile + 512), mem := Function.update s.mem (s.currentFile + 512 + size) 0 }
  else some s

/-- Address and number of the pages that are freed, and the file after that. -/
def freed (file size : ℕ) : ℕ × ℕ := (file - highVma, (512 + alignUp size 512) % 2 ^ 64 / pageSize)

def nextFile (file size : ℕ) : ℕ := (file + (512 + alignUp size 512)) % 2 ^ 64

/-- The body of the loop, with the call of `pmm_free` if it comes to it. -/
def unpackTurn (s : State σ) : Option (Option (ℕ × ℕ) × State σ) :=
  let name := s.nameOverride.getD s.currentFile
  let s := { s with nameOverride := none }
  if isDotSlash s.mem name then some (none, s)
  else
    let size := fieldSize s.mem s.currentFile
    (unpackFile V s name size (fieldMtime s.mem s.currentFile)).map fun s' =>
      (some (freed s.currentFile size), { s' with currentFile := nextFile s.currentFile size })

/-- A turn of the loop: the header it is about, the pages it frees, and the header it goes to. -/
structure Turn where
  header : ℕ
  free : Option (ℕ × ℕ)
  next : ℕ

inductive Step : State σ → Turn → State σ → Prop
  | mk {s s' : State σ} {free : Option (ℕ × ℕ)} (h : isUstar s.mem s.currentFile)
      (turn : unpackTurn V s = some (free, s')) : Step s ⟨s.currentFile, free, s'.currentFile⟩ s'

def State.Finished (s : State σ) : Prop := isUstar s.mem s.currentFile = false

def start (mem : Mem) (vfs : σ) (address : ℕ) : State σ := ⟨mem, vfs, address, none, 0⟩

end Loop

/-- A header and the data behind it. -/
structure Entry where
  header : List (BitVec 8)
  data : List (BitVec 8)

def Entry.size (e : Entry) : ℕ := e.data.length

/-- The size is in octal digits and ends with a zero byte. -/
structure Entry.WellFormed (e : Entry) : Prop where
  length : e.header.length = 512
  magic : (e.header.drop 257).take 5 = [0x75, 0x73, 0x74, 0x61, 0x72]
  field : ∃ digits tail, Encodes ((e.header.drop 124).take 12) e.size 0 digits (0 :: tail)
  small : e.size < 8 ^ 11

def Entry.span (e : Entry) : ℕ := 512 + (e.size + 511) / 512 * 512

def archiveEnd : ℕ → List Entry → ℕ
  | a, [] => a
  | a, e :: es => archiveEnd (a + e.span) es

def headers : ℕ → List Entry → List ℕ
  | _, [] => []
  | a, e :: es => a :: headers (a + e.span) es

/-- The entries lie in memory from `a` on, with a zero block behind them. -/
def Laid (mem : Mem) : ℕ → List Entry → Prop
  | a, [] => ∀ i < 512, mem (a + i) = 0
  | a, e :: es => (∀ i (h : i < e.header.length), mem (a + i) = e.header[i]) ∧
      (∀ i (h : i < e.data.length), mem (a + 512 + i) = e.data[i]) ∧ Laid mem (a + e.span) es

/-- The bytes of a name say `./`. -/
def dotSlash (bytes : List (BitVec 8)) : Bool := bytes.take 3 = [0x2e, 0x2f, 0]

def Entry.type (e : Entry) : BitVec 8 := e.header.getD 156 0

/-- What the entry leaves as the name of the next. -/
def Entry.override (e : Entry) : Option (List (BitVec 8)) :=
  if e.type = typeGnuLongPath then some (e.data ++ [0]) else none

/-- No entry is named `./`, by its header or by the long-name record before it. -/
def NoDotSlash : Option (List (BitVec 8)) → List Entry → Prop
  | _, [] => True
  | override, e :: es => dotSlash (override.getD e.header) = false ∧ NoDotSlash e.override es

/-- No creation and no write is refused on the way over the entries. -/
def Accepted {σ ν : Type} (V : Vfs σ ν) : State σ → List Entry → Prop
  | _, [] => True
  | s, e :: es => ∃ s', unpackFile V { s with nameOverride := none } (s.nameOverride.getD s.currentFile) e.size
      (fieldMtime s.mem s.currentFile) = some s' ∧ Accepted V { s' with currentFile := s.currentFile + e.span } es

section Reading
variable {mem : Mem} {a p : ℕ} {e : Entry} {es : List Entry}

/-- As `Laid`, but the first byte of the first header may have been overwritten. -/
def LaidButFirst (mem : Mem) : ℕ → List Entry → Prop
  | a, [] => ∀ i < 512, mem (a + i) = 0
  | a, e :: es => (∀ i (h : i < e.header.length), 0 < i → mem (a + i) = e.header[i]) ∧
      (∀ i (h : i < e.data.length), mem (a + 512 + i) = e.data[i]) ∧ Laid mem (a + e.span) es

lemma Laid.butFirst (h : Laid mem a es) : LaidButFirst mem a es := by
  cases es with
  | nil => exact h
  | cons e es => exact ⟨fun i hi _ => h.1 i hi, h.2⟩

lemma span_ge (e : Entry) : 512 + e.size ≤ e.span := by
  unfold Entry.span
  omega

/-- A byte below the entries. -/
lemma Laid.update (h : Laid mem a es) (hp : p < a) (b : BitVec 8) : Laid (Function.update mem p b) a es := by
  induction es generalizing a with
  | nil =>
    intro i hi
    rw [Function.update_of_ne (by omega)]
    exact h i hi
  | cons e es ih =>
    refine ⟨fun i hi => ?_, fun i hi => ?_, ih h.2.2 (by omega)⟩
    · rw [Function.update_of_ne (by omega)]
      exact h.1 i hi
    · rw [Function.update_of_ne (by omega)]
      exact h.2.1 i hi

/-- The zero that ends a long name lies at most one byte into the next entry. -/
lemma Laid.terminated (h : Laid mem a es) (hp : p ≤ a) : LaidButFirst (Function.update mem p 0) a es := by
  rcases Nat.lt_or_ge p a with hlt | hge
  · exact (h.update hlt 0).butFirst
  · obtain rfl : p = a := by omega
    cases es with
    | nil =>
      intro i hi
      rw [Function.update_apply]
      split_ifs
      · rfl
      · exact h i hi
    | cons e es =>
      have hspan := span_ge e
      refine ⟨fun i hi h0 => ?_, fun i hi => ?_, h.2.2.update (by omega) 0⟩
      · rw [Function.update_of_ne (by omega)]
        exact h.1 i hi
      · rw [Function.update_of_ne (by omega)]
        exact h.2.1 i hi

/-- Part of the header as it lies in memory. -/
lemma header_part (hlen : e.header.length = 512) (h : LaidButFirst mem a (e :: es)) {o n : ℕ} (h0 : 0 < o)
    (hn : o + n ≤ 512) : (List.range n).map (fun i => mem (a + o + i)) = (e.header.drop o).take n := by
  refine List.ext_getElem (by simp; omega) fun i hi _ => ?_
  simp only [List.length_map, List.length_range] at hi
  have hbyte := h.1 (o + i) (by omega) (by omega)
  simp only [List.getElem_map, List.getElem_range, List.getElem_take, List.getElem_drop, Nat.add_assoc]
  exact hbyte

lemma isUstar_entry (hw : e.WellFormed) (h : LaidButFirst mem a (e :: es)) : isUstar mem a = true := by
  rw [isUstar, header_part hw.length h (by decide) (by decide), hw.magic]
  rfl

lemma type_entry (hw : e.WellFormed) (h : LaidButFirst mem a (e :: es)) : mem (a + 156) = e.type := by
  have hlen := hw.length
  rw [h.1 156 (by omega) (by decide), Entry.type]
  simp [hlen]

lemma fieldSize_entry (hw : e.WellFormed) (h : LaidButFirst mem a (e :: es)) : fieldSize mem a = e.size := by
  obtain ⟨digits, tail, henc⟩ := hw.field
  have hlen : ((e.header.drop 124).take 12).length = 12 := by
    have := hw.length
    simp
    omega
  have hzero : ZeroEnded ((e.header.drop 124).take 12) := by
    have hfield := henc.field
    simp only [List.replicate_zero, List.nil_append] at hfield
    have hiff := zeroEnded_iff (k := 0) henc.octal 0 tail
    simp only [List.replicate_zero, List.nil_append, List.append_nil] at hiff
    rw [hfield]
    exact hiff.mpr ⟨trivial, trivial⟩
  have hdec := (oct2int_decodes henc).2 hzero (hw.small.trans (by decide))
  have hpart := header_part hw.length h (o := 124) (n := 12) (by decide) (by decide)
  have hread := hdec (fun i => mem (a + 124 + i)) fun i hi => by
    rw [← List.getElem_of_eq hpart (by simpa using hlen ▸ hi)]
    simp
  rw [hlen] at hread
  exact hread.1

lemma not_ustar_end (h : LaidButFirst mem a []) : isUstar mem a = false := by
  have hbyte := h 257 (by decide)
  simp [isUstar, List.range_succ, hbyte]

lemma dotSlash_short {bytes : List (BitVec 8)} (h : bytes.length < 3) : dotSlash bytes = false := by
  refine decide_eq_false fun heq => ?_
  have hlen := congrArg List.length heq
  simp at hlen
  omega

lemma isDotSlash_eq {bytes : List (BitVec 8)} (h : ∀ i (h : i < bytes.length), mem (p + i) = bytes[i])
    (hlen : 0 ∈ bytes ∨ 3 ≤ bytes.length) : isDotSlash mem p = dotSlash bytes := by
  rcases bytes with - | ⟨b, - | ⟨c, - | ⟨d, bytes⟩⟩⟩
  · simp at hlen
  · have hb : mem p = b := h 0 (by simp)
    have hzero : b = 0 := by
      rcases hlen with hmem | hlen
      · exact (List.mem_singleton.mp hmem).symm
      · exact absurd hlen (by simp)
    rw [dotSlash_short (by simp)]
    refine decide_eq_false fun hno => ?_
    rw [hb, hzero] at hno
    exact absurd hno.1 (by decide)
  · have hb : mem p = b := h 0 (by simp)
    have hc : mem (p + 1) = c := h 1 (by simp)
    have hzero : b = 0 ∨ c = 0 := by
      rcases hlen with hmem | hlen
      · rcases List.mem_pair.mp hmem with h0 | h0
        · exact .inl h0.symm
        · exact .inr h0.symm
      · exact absurd hlen (by simp)
    rw [dotSlash_short (by simp)]
    refine decide_eq_false fun hno => ?_
    rw [hb, hc] at hno
    rcases hzero with rfl | rfl
    · exact absurd hno.1 (by decide)
    · exact absurd hno.2.1 (by decide)
  · have hb : mem p = b := h 0 (by simp)
    have hc : mem (p + 1) = c := h 1 (by simp)
    have hd : mem (p + 2) = d := h 2 (by simp)
    rw [isDotSlash, dotSlash, hb, hc, hd]
    apply decide_eq_decide.mpr
    simp

lemma nextFile_eq (hw : e.WellFormed) (hfit : a + e.span < 2 ^ 64) : nextFile a e.size = a + e.span := by
  have hsmall := hw.small
  have halign : alignUp e.size 512 = (e.size + 511) / 512 * 512 := by
    rw [alignUp, divCeil_eq (by omega), Nat.mod_eq_of_lt (by omega)]
  rw [nextFile, halign]
  exact Nat.mod_eq_of_lt hfit

end Reading

section Walk
variable {σ ν : Type} {V : Vfs σ ν} {s s' : State σ} {ln : Option (List (BitVec 8))} {e : Entry} {es : List Entry}

/-- At the first of the entries, with `ln` as the name in its place. -/
structure At (s : State σ) (ln : Option (List (BitVec 8))) (es : List Entry) : Prop where
  laid : LaidButFirst s.mem s.currentFile es
  first : ln = none → Laid s.mem s.currentFile es ∧ s.nameOverride = none
  long : ∀ bytes, ln = some bytes → ∃ p, s.nameOverride = some p ∧
    (∀ i (h : i < bytes.length), s.mem (p + i) = bytes[i]) ∧ 0 ∈ bytes

lemma At.isDotSlash (h : At s ln (e :: es)) (hw : e.WellFormed) :
    isDotSlash s.mem (s.nameOverride.getD s.currentFile) = dotSlash (ln.getD e.header) := by
  cases hover : ln with
  | none =>
    obtain ⟨hlaid, hname⟩ := h.first hover
    rw [hname]
    exact isDotSlash_eq hlaid.1 (.inr (by have := hw.length; simp; omega))
  | some bytes =>
    obtain ⟨p, hname, hbytes, hzero⟩ := h.long bytes hover
    rw [hname]
    exact isDotSlash_eq hbytes (.inl hzero)

/-- One turn of the loop. -/
lemma At.turn (h : At s ln (e :: es)) (hw : e.WellFormed) (hfit : s.currentFile + e.span < 2 ^ 64) :
    unpackTurn V s = if dotSlash (ln.getD e.header) then some (none, { s with nameOverride := none })
      else (unpackFile V { s with nameOverride := none } (s.nameOverride.getD s.currentFile) e.size
        (fieldMtime s.mem s.currentFile)).map fun s' =>
          (some (freed s.currentFile e.size), { s' with currentFile := s.currentFile + e.span }) := by
  rw [← h.isDotSlash hw, unpackTurn]
  dsimp only
  rw [fieldSize_entry hw h.laid, nextFile_eq hw hfit]

/-- What the switch changes. -/
lemma unpackFile_cases {p size mtime : ℕ} (hfile : unpackFile V s p size mtime = some s') :
    (s.mem (s.currentFile + 156) ≠ typeGnuLongPath ∧ s'.mem = s.mem ∧ s'.nameOverride = s.nameOverride) ∨
      s.mem (s.currentFile + 156) = typeGnuLongPath ∧
        s'.mem = Function.update s.mem (s.currentFile + 512 + size) 0 ∧ s'.nameOverride = some (s.currentFile + 512) := by
  unfold unpackFile at hfile
  dsimp only at hfile
  split_ifs at hfile with hnormal hdir hlong
  · rcases hcreate : V.create s.vfs (fun i => s.mem (p + i)) .regular with ⟨node, vfs⟩
    rw [hcreate] at hfile
    cases node with
    | none => cases hfile
    | some node =>
      dsimp only at hfile
      split_ifs at hfile
      obtain rfl := Option.some.inj hfile
      exact .inl ⟨by rw [hnormal]; decide, rfl, rfl⟩
  · rcases hcreate : V.create s.vfs (fun i => s.mem (p + i)) .directory with ⟨node, vfs⟩
    rw [hcreate] at hfile
    cases node with
    | none => cases hfile
    | some node =>
      obtain rfl := Option.some.inj hfile
      exact .inl ⟨by rw [hdir]; decide, rfl, rfl⟩
  · obtain rfl := Option.some.inj hfile
    exact .inr ⟨hlong, rfl, rfl⟩
  · obtain rfl := Option.some.inj hfile
    exact .inl ⟨hlong, rfl, rfl⟩

/-- The entries behind keep their bytes, but for one. -/
lemma LaidButFirst.next (h : LaidButFirst s.mem s.currentFile (e :: es)) {p mtime : ℕ}
    (hfile : unpackFile V { s with nameOverride := none } p e.size mtime = some s') :
    LaidButFirst s'.mem (s.currentFile + e.span) es := by
  have hspan := span_ge e
  rcases unpackFile_cases hfile with ⟨-, hmem, -⟩ | ⟨-, hmem, -⟩
  · rw [hmem]
    exact Laid.butFirst h.2.2
  · rw [hmem]
    exact Laid.terminated h.2.2 (by dsimp only; omega)

/-- What an accepted entry leaves in memory. -/
lemma At.next (h : At s ln (e :: es)) (hw : e.WellFormed) {p mtime : ℕ}
    (hfile : unpackFile V { s with nameOverride := none } p e.size mtime = some s') :
    At { s' with currentFile := s.currentFile + e.span } e.override es := by
  have hnext := h.laid.next hfile
  refine ⟨hnext, ?_, ?_⟩
  all_goals
    have htype : s.mem (s.currentFile + 156) = e.type := type_entry hw h.laid
    have hcases := unpackFile_cases hfile
    dsimp only at hcases
    rw [htype] at hcases
    rw [Entry.override]
  · intro hnone
    rcases hcases with ⟨-, hmem, hname⟩ | ⟨hlong, -⟩
    · refine ⟨?_, hname⟩
      dsimp only
      rw [hmem]
      exact h.laid.2.2
    · rw [if_pos hlong] at hnone
      cases hnone
  · intro bytes hbytes
    rcases hcases with ⟨hne, -⟩ | ⟨hlong, hmem, hname⟩
    · rw [if_neg hne] at hbytes
      cases hbytes
    · rw [if_pos hlong] at hbytes
      obtain rfl := Option.some.inj hbytes
      refine ⟨_, hname, fun i hi => ?_, by simp⟩
      rw [List.length_append, List.length_singleton] at hi
      dsimp only
      rw [hmem]
      rcases Nat.lt_or_ge i e.data.length with hlt | hge
      · rw [Function.update_of_ne (by rw [Entry.size]; omega), List.getElem_append_left hlt]
        exact h.laid.2.1 i hlt
      · obtain rfl : i = e.data.length := by omega
        rw [List.getElem_append_right le_rfl]
        simp [Entry.size]

lemma start_at {mem : Mem} {a : ℕ} (vfs : σ) (h : Laid mem a es) : At (start mem vfs a) none es :=
  ⟨h.butFirst, fun _ => ⟨h, rfl⟩, fun _ hno => absurd hno (by simp)⟩

lemma archiveEnd_ge (a : ℕ) (es : List Entry) : a ≤ archiveEnd a es := by
  induction es generalizing a with
  | nil => exact le_rfl
  | cons e es ih => exact (Nat.le_add_right a e.span).trans (ih _)

/-- Without `./` and refusals the loop goes from header to header. -/
lemma At.walk (h : At s ln es) (hw : ∀ e ∈ es, e.WellFormed) (hend : archiveEnd s.currentFile es < 2 ^ 64)
    (hnames : NoDotSlash ln es) (hok : Accepted V s es) :
    ∃ turns s', Run (Step V) s turns s' ∧ s'.Finished ∧ turns.map Turn.header = headers s.currentFile es := by
  induction es generalizing s ln with
  | nil => exact ⟨[], s, .nil s, not_ustar_end h.laid, rfl⟩
  | cons e es ih =>
    have hwe := hw e List.mem_cons_self
    have hfit := (archiveEnd_ge (s.currentFile + e.span) es).trans_lt hend
    obtain ⟨s1, hfile, hok⟩ := hok
    have hturn := h.turn (V := V) hwe hfit
    rw [hnames.1, if_neg Bool.false_ne_true, hfile, Option.map_some] at hturn
    obtain ⟨turns, s', hrun, hfin, hheaders⟩ := ih (h.next hwe hfile) (fun e' he' => hw e' (List.mem_cons_of_mem _ he'))
      hend hnames.2 hok
    exact ⟨_ :: turns, s', .cons (.mk (isUstar_entry hwe h.laid) hturn) hrun, hfin, congrArg (s.currentFile :: ·) hheaders⟩

/-- Where it does so, there are none. -/
lemma At.walked (h : At s ln es) (hw : ∀ e ∈ es, e.WellFormed) (hend : archiveEnd s.currentFile es < 2 ^ 64)
    {turns : List Turn} (hrun : Run (Step V) s turns s') (hfin : s'.Finished)
    (hheaders : turns.map Turn.header = headers s.currentFile es) : NoDotSlash ln es ∧ Accepted V s es := by
  induction es generalizing s ln turns with
  | nil => exact ⟨trivial, trivial⟩
  | cons e es ih =>
    have hwe := hw e List.mem_cons_self
    have hfit := (archiveEnd_ge (s.currentFile + e.span) es).trans_lt hend
    have hturn := h.turn (V := V) hwe hfit
    cases hrun with
    | nil => simp [headers] at hheaders
    | cons hstep hrun =>
      obtain ⟨-, hstep⟩ := hstep
      rw [hstep] at hturn
      have hrest := (List.cons.inj hheaders).2
      split_ifs at hturn with hdot
      · -- the next turn is about the same header
        obtain ⟨-, rfl⟩ := Prod.mk.inj (Option.some.inj hturn)
        have hspan := span_ge e
        cases hrun with
        | nil =>
          have hagain := isUstar_entry hwe h.laid
          rw [State.Finished] at hfin
          rw [hfin] at hagain
          cases hagain
        | cons hstep2 _ =>
          obtain ⟨-, -⟩ := hstep2
          cases es with
          | nil => simp [headers] at hrest
          | cons e2 es =>
            have hsame := (List.cons.inj hrest).1
            dsimp only at hsame
            omega
      · obtain ⟨s1, hfile, hs1⟩ := Option.map_eq_some_iff.mp hturn.symm
        obtain ⟨-, rfl⟩ := Prod.mk.inj hs1
        obtain ⟨hnames, hok⟩ := ih (h.next hwe hfile) (fun e' he' => hw e' (List.mem_cons_of_mem _ he')) hend hrun hrest
        exact ⟨⟨by simpa using hdot, hnames⟩, s1, hfile, hok⟩

/-- The page that an address of the direct map lies in. -/
def pageOf (address : ℕ) : ℕ := (address - highVma) / pageSize

/-- First page and number of the pages that `pmm_free` clears. -/
def freedPages (free : ℕ × ℕ) : ℕ × ℕ := (free.1 / pageSize, free.2)

/-- The pages of an entry lie below the next header. -/
lemma freed_below {a : ℕ} (hw : e.WellFormed) (ha : highVma ≤ a) :
    (freedPages (freed a e.size)).1 = pageOf a ∧
      (freedPages (freed a e.size)).1 + (freedPages (freed a e.size)).2 ≤ pageOf (a + e.span) := by
  have hsmall := hw.small
  have halign : alignUp e.size 512 = (e.size + 511) / 512 * 512 := by
    rw [alignUp, divCeil_eq (by omega), Nat.mod_eq_of_lt (by omega)]
  refine ⟨rfl, ?_⟩
  unfold freedPages freed pageOf Entry.span pageSize
  rw [halign]
  omega

/-- A turn that frees nothing stays where it is; any other goes on to the next entry. -/
lemma LaidButFirst.step (h : LaidButFirst s.mem s.currentFile es) (hw : ∀ e ∈ es, e.WellFormed)
    (hend : archiveEnd s.currentFile es < 2 ^ 64) {t : Turn} (hstep : Step V s t s') : t.next = s'.currentFile ∧
      ((t.free = none ∧ s'.currentFile = s.currentFile ∧ LaidButFirst s'.mem s.currentFile es) ∨
        ∃ e rest, es = e :: rest ∧ t.free = some (freed s.currentFile e.size) ∧
          s'.currentFile = s.currentFile + e.span ∧ LaidButFirst s'.mem (s.currentFile + e.span) rest) := by
  obtain ⟨hustar, hturn⟩ := hstep
  refine ⟨rfl, ?_⟩
  cases es with
  | nil =>
    rw [not_ustar_end h] at hustar
    cases hustar
  | cons e es =>
    have hwe := hw e List.mem_cons_self
    have hfit := (archiveEnd_ge (s.currentFile + e.span) es).trans_lt hend
    unfold unpackTurn at hturn
    dsimp only at hturn
    rw [fieldSize_entry hwe h, nextFile_eq hwe hfit] at hturn
    split_ifs at hturn
    · obtain ⟨rfl, rfl⟩ := Prod.mk.inj (Option.some.inj hturn)
      exact .inl ⟨rfl, rfl, h⟩
    · obtain ⟨s1, hfile, hs1⟩ := Option.map_eq_some_iff.mp hturn
      obtain ⟨rfl, rfl⟩ := Prod.mk.inj hs1
      have hnext := h.next hfile
      exact .inr ⟨e, es, rfl, rfl, rfl, hnext⟩

lemma pageOf_mono {a b : ℕ} (h : a ≤ b) : pageOf a ≤ pageOf b := Nat.div_le_div_right (Nat.sub_le_sub_right h _)

/-- What has been freed between two states of the loop. -/
structure FreedBetween (turns : List Turn) (a b : ℕ) : Prop where
  order : a ≤ b
  apart : ((turns.filterMap Turn.free).map freedPages).Pairwise Apart
  between : ∀ free ∈ turns.filterMap Turn.free,
    pageOf a ≤ (freedPages free).1 ∧ (freedPages free).1 + (freedPages free).2 ≤ pageOf b
  below : ∀ t ∈ turns, ∀ free ∈ t.free, (freedPages free).1 + (freedPages free).2 ≤ pageOf t.next

/-- A turn before the rest. -/
lemma FreedBetween.cons {turns : List Turn} {a b c : ℕ} {t : Turn} (hrest : FreedBetween turns b c) (hab : a ≤ b)
    (hfirst : ∀ free ∈ t.free, pageOf a ≤ (freedPages free).1 ∧
      (freedPages free).1 + (freedPages free).2 ≤ pageOf b ∧ t.next = b) : FreedBetween (t :: turns) a c := by
  have hbc := pageOf_mono hrest.order
  refine ⟨hab.trans hrest.order, ?_, ?_, ?_⟩
  · cases hfree : t.free with
    | none =>
      rw [List.filterMap_cons_none hfree]
      exact hrest.apart
    | some f =>
      rw [List.filterMap_cons_some hfree, List.map_cons, List.pairwise_cons]
      refine ⟨fun g hg => ?_, hrest.apart⟩
      obtain ⟨free, hmem, rfl⟩ := List.mem_map.mp hg
      exact .inl ((hfirst f hfree).2.1.trans (hrest.between free hmem).1)
  · intro free hmem
    rw [List.mem_filterMap] at hmem
    obtain ⟨t', ht', hfree⟩ := hmem
    rcases List.mem_cons.mp ht' with rfl | ht'
    · obtain ⟨h1, h2, -⟩ := hfirst free hfree
      exact ⟨h1, h2.trans hbc⟩
    · obtain ⟨h1, h2⟩ := hrest.between free (List.mem_filterMap.mpr ⟨t', ht', hfree⟩)
      exact ⟨(pageOf_mono hab).trans h1, h2⟩
  · intro t' ht' free hfree
    rcases List.mem_cons.mp ht' with rfl | ht'
    · obtain ⟨-, h2, hnext⟩ := hfirst free hfree
      rwa [hnext]
    · exact hrest.below t' ht' free hfree

lemma LaidButFirst.frees (h : LaidButFirst s.mem s.currentFile es) (hw : ∀ e ∈ es, e.WellFormed)
    (hend : archiveEnd s.currentFile es < 2 ^ 64) (ha : highVma ≤ s.currentFile) {turns : List Turn}
    (hrun : Run (Step V) s turns s') : FreedBetween turns s.currentFile s'.currentFile := by
  induction hrun generalizing es with
  | nil s => exact ⟨le_rfl, .nil, by simp, by simp⟩
  | @cons s s1 s2 t turns hstep _ ih =>
    obtain ⟨hnext, ⟨hnone, hcur, hlaid⟩ | ⟨e, rest, rfl, hfree, hcur, hlaid⟩⟩ := h.step hw hend hstep
    · refine (ih (hcur ▸ hlaid) hw (hcur ▸ hend) (hcur ▸ ha)).cons (le_of_eq hcur.symm) fun free hfree => ?_
      rw [hnone] at hfree
      cases hfree
    · have hspan := span_ge e
      obtain ⟨hfirst, hlast⟩ := freed_below (hw e List.mem_cons_self) ha
      refine (ih (hcur ▸ hlaid) (fun e' he' => hw e' (List.mem_cons_of_mem _ he')) (hcur ▸ hend) (by omega)).cons
        (by omega) fun free hmem => ?_
      rw [hfree] at hmem
      obtain rfl := Option.mem_some_iff.mp hmem
      rw [hcur]
      exact ⟨le_of_eq hfirst.symm, hlast, hnext.trans hcur⟩

end Walk

section Directory

/-- The header of an empty directory, from the size on. -/
def directoryFields : List (BitVec 8) :=
  (List.replicate 11 0x30 ++ [0]) ++ List.replicate 20 0 ++ (typeDirectory :: List.replicate 100 0) ++
    ([0x75, 0x73, 0x74, 0x61, 0x72] ++ List.replicate 250 0)

def directoryHeader (name : List (BitVec 8)) : List (BitVec 8) :=
  (name ++ List.replicate (124 - name.length) 0) ++ directoryFields

def directory (name : List (BitVec 8)) : Entry := ⟨directoryHeader name, []⟩

/-- Memory with one such header at `highVma`. -/
def directoryMem (name : List (BitVec 8)) : Mem := fun p =>
  if p < highVma + 512 then (directoryHeader name).getD (p - highVma) 0 else 0

/-- A file system that refuses nothing and numbers its nodes. -/
def counting : Vfs ℕ ℕ where
  create n _ _ := (some n, n + 1)
  write n _ _ size := (BitVec.ofNat 64 size, n)
  stamp n _ _ _ := n

lemma directory_span (name : List (BitVec 8)) : (directory name).span = 512 := by
  simp [Entry.span, Entry.size, directory]

lemma directoryName_length {name : List (BitVec 8)} (h : name.length ≤ 124) :
    (name ++ List.replicate (124 - name.length) (0 : BitVec 8)).length = 124 := by
  rw [List.length_append, List.length_replicate]
  omega

lemma directoryHeader_drop {name : List (BitVec 8)} (h : name.length ≤ 124) (n : ℕ) :
    (directoryHeader name).drop (124 + n) = directoryFields.drop n := by
  rw [directoryHeader, show 124 + n = (name ++ List.replicate (124 - name.length) (0 : BitVec 8)).length + n by
    rw [directoryName_length h], List.drop_length_add_append]

lemma directoryHeader_length {name : List (BitVec 8)} (h : name.length ≤ 124) : (directoryHeader name).length = 512 := by
  rw [directoryHeader, List.length_append, directoryName_length h, show directoryFields.length = 388 by decide +kernel]

lemma directory_wellFormed {name : List (BitVec 8)} (h : name.length ≤ 124) : (directory name).WellFormed where
  length := directoryHeader_length h
  magic := by
    rw [directory, directoryHeader_drop h 133]
    decide +kernel
  field := by
    refine ⟨List.replicate 11 0x30, [], ?_, ?_, by decide, by decide, rfl⟩
    · rw [directory, directoryHeader_drop h 0]
      decide +kernel
    · intro c hc
      rw [List.eq_of_mem_replicate hc]
      exact ⟨by decide, by decide⟩
  small := Nat.pow_pos (by decide)

lemma directory_laid {n : List (BitVec 8)} (h : n.length ≤ 124) : Laid (directoryMem n) highVma [directory n] := by
  have hlen := directoryHeader_length h
  refine ⟨fun i hi => ?_, fun i hi => absurd hi (Nat.not_lt_zero i), fun i hi => ?_⟩
  · have hlt : i < 512 := hlen ▸ hi
    rw [directoryMem, if_pos (by omega), Nat.add_sub_cancel_left]
    exact (List.getElem_eq_getD 0).symm
  · rw [directoryMem, directory_span, if_neg (by omega)]

lemma directory_end (name : List (BitVec 8)) : archiveEnd highVma [directory name] < 2 ^ 64 := by
  rw [archiveEnd, archiveEnd, directory_span]
  decide

lemma directory_all {name : List (BitVec 8)} (h : name.length ≤ 124) : ∀ e ∈ [directory name], e.WellFormed := by
  intro e he
  obtain rfl := List.mem_singleton.mp he
  exact directory_wellFormed h

end Directory

end PiggyOs.Initrd
