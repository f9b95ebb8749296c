import Xv6.Mkfs.Append

/-!
# The image that `mkfs` makes

`tree files` is the file system that `mkfs` is asked for.  `Holds` says that the image of a run has
got as far as a given list of inodes.  At the end the size of the root directory is rounded up, past
the last block when the directory has filled it.
-/

namespace Xv6.Mkfs

open Lib Fs Function

attribute [local irreducible] wp exec

/-- An inode of the image: its type and its bytes. -/
abbrev Node := Short × List Byte

def need (nodes : List Node) : ℕ := (nodes.map fun x => blocksOf x.2.length).sum

/-- Inode `i` on the disk is the given one. -/
structure IsNode (disk : Disk) (i : ℕ) (x : Node) : Prop where
  type : (inode sb disk i).type = x.1
  nlink : (inode sb disk i).nlink = 1
  contents : (inode sb disk i).contents disk = x.2

/-- The image has the given inodes, from number 1 on. -/
structure Holds (s : State) (nodes : List Node) : Prop where
  tidy : Tidy s
  super : s.disk 1 = sbBlock
  consistent : Consistent sb s.marked
  numbers : s.freeinode = nodes.length + 1
  few : nodes.length < NINODES
  types : ∀ x ∈ nodes, x.1 ≠ 0 ∧ x.1 ≠ T_DEV
  node : ∀ j x, nodes[j]? = some x → IsNode s.marked (j + 1) x
  unused : ∀ i < NINODES, i = 0 ∨ nodes.length < i → (inode sb s.marked i).type = 0
  count : s.freeblock = nmeta + need nodes

variable {s s' : State} {disk disk' : Disk} {nodes : List Node} {x : Node} {i j : ℕ} {d : Dinode}
  {p : List Byte}

/-! ## Blocks needed -/

theorem need_append (a b : List Node) : need (a ++ b) = need a + need b := by
  simp [need]

theorem need_cons (x : Node) (l : List Node) : need (x :: l) = blocksOf x.2.length + need l := rfl

theorem need_empty (type : Short) : need [(type, [])] = 0 := by
  rw [need_cons]
  exact (by decide : blocksOf 0 + 0 = 0)

theorem need_set (y : Node) : ∀ {l : List Node} {j : ℕ}, l[j]? = some x →
    need (l.set j y) + blocksOf x.2.length = need l + blocksOf y.2.length
  | [], _, at_j => by simp at at_j
  | z :: l, 0, at_j => by
      obtain rfl : z = x := by simpa using at_j
      rw [List.set_cons_zero, need_cons, need_cons]
      omega
  | z :: l, j + 1, at_j => by
      have rest := need_set y (l := l) (j := j) (by simpa using at_j)
      rw [List.set_cons_succ, need_cons, need_cons]
      omega

theorem blocksOf_mono {m n : ℕ} (le : m ≤ n) : blocksOf m ≤ blocksOf n := by
  have : nblk m ≤ nblk n := Nat.div_le_div_right (by omega)
  exact blockCount_mono this this

/-! ## Inodes that stay -/

theorem contents_of_apart {sb : Superblock} (h : Apart sb i disk disk') (hj : j < sb.ninodes)
    (ne : j ≠ i) (type : (inode sb disk j).type ≠ 0) :
    (inode sb disk' j).contents disk' = (inode sb disk j).contents disk := by
  rw [Dinode.contents, Dinode.contents, h.inodes j hj ne]
  refine List.map_congr_left fun k _ => ?_
  rw [← h.byte hj ne type, h.inodes j hj ne]

theorem IsNode.of_apart (h : IsNode disk j x) (apart : Apart sb i disk disk') (hj : j < NINODES)
    (ne : j ≠ i) (type : x.1 ≠ 0) : IsNode disk' j x := by
  have same := apart.inodes j hj ne
  refine ⟨by rw [same]; exact h.type, by rw [same]; exact h.nlink, ?_⟩
  rw [contents_of_apart apart hj ne (h.type ▸ type)]
  exact h.contents

/-! ## Allocating an inode -/

theorem onDisk_empty (empty : ∀ k, d.addr k = 0) (q : FilePos) : d.onDisk disk q = none := by
  have zero (k : ℕ) : ptr (d.addr k) = none := by rw [empty, ptr_zero]
  cases q with
  | data k => simp [Dinode.onDisk, Dinode.blocks, zero, empty NDIRECT]
  | indirect => exact zero NDIRECT

theorem consistent_alloc {sb : Superblock} (layout : sb.Layout) (h : Consistent sb disk)
    (hi : i < sb.ninodes) (free : (inode sb disk i).type = 0) (empty : ∀ k, d.addr k = 0)
    (size : d.size = 0) :
    Consistent sb (writeInode sb disk i d) ∧ Apart sb i disk (writeInode sb disk i d) := by
  have data {b : ℕ} (hb : sb.nmeta ≤ b) : writeInode sb disk i d b = disk b :=
    writeInode_data layout hi d hb
  have apart : Apart sb i disk (writeInode sb disk i d) :=
    ⟨fun j _ ne => inode_writeInode_ne d ne,
    fun j hj _ type q c at_q => data (h.area j hj type q c at_q).1⟩
  have account : Accounted sb (writeInode sb disk i d) (inode sb (writeInode sb disk i d)) := by
    refine (accounted_of_consistent h).congr ?_ fun c => by rw [inUse_writeInode layout hi]
    rintro ⟨j, q⟩
    by_cases j_i : j = i
    · subst j_i
      rw [places, places, inode_writeInode_same, onDisk_empty empty, ite_self,
        if_neg fun alloc => alloc.2 free]
    have same : places sb (writeInode sb disk i d)
          (update (inode sb (writeInode sb disk i d)) i d) (j, q) =
        places sb disk (update (inode sb disk) i (inode sb disk i)) (j, q) :=
      apart.places j_i q
    rw [update_eq_self] at same
    rw [← same, places, places, update_of_ne j_i]
  refine ⟨consistent_of_accounted account fun j hj type => ?_, apart⟩
  by_cases j_i : j = i
  · subst j_i
    rw [inode_writeInode_same, size, show nblk (0 : Word).toNat = 0 from rfl]
    constructor <;> simp [onDisk_empty empty]
  rw [apart.inodes j hj j_i] at type
  rw [apart.onDisk hj j_i type, apart.inodes j hj j_i]
  exact h.extent j hj type

theorem Holds.alloc (h : Holds s nodes) (room : nodes.length + 1 < NINODES) (type : Short)
    (good : type ≠ 0 ∧ type ≠ T_DEV) :
    wp (ialloc type) (fun inum s' => inum = nodes.length + 1 ∧ Holds s' (nodes ++ [(type, [])]))
      never s := by
  have tidy : Tidy { s with freeinode := s.freeinode + 1 } :=
    ⟨h.tidy.sectors, h.tidy.low, h.tidy.high, h.tidy.fresh⟩
  have hi : s.freeinode < NINODES := by rw [h.numbers]; exact room
  rw [ialloc, wp_bind, wp_get, wp_bind, wp_modify, wp_bind, wp_winode tidy hi, wp_pure]
  set d : Dinode := ⟨type, 0, 0, 1, 0, fun _ => 0⟩
  have free := h.unused s.freeinode hi (.inr (by rw [h.numbers]; omega))
  have empty (k : ℕ) : d.addr k = 0 := by simp [Dinode.addr, d]
  obtain ⟨consistent, apart⟩ := consistent_alloc layout h.consistent hi free empty rfl
  have marked : ({ s with
      disk := writeInode sb s.disk s.freeinode d, freeinode := s.freeinode + 1 } : State).marked =
      writeInode sb s.marked s.freeinode d := marked_writeInode hi d
  rw [h.numbers] at *
  refine ⟨rfl, ⟨⟨tidy.sectors, tidy.low, tidy.high, (tidy.writeInode hi d).fresh⟩, ?_,
    by rw [marked]; exact consistent, by simp, by simpa using room, ?_, ?_, ?_, ?_⟩⟩
  · exact (super_writeInode (i := nodes.length + 1) s.disk d).trans h.super
  · intro x hx
    obtain old | rfl : x ∈ nodes ∨ x = (type, []) := by simpa using hx
    · exact h.types x old
    · exact good
  · intro j x at_j
    rw [marked]
    by_cases last : j = nodes.length
    · subst last
      obtain rfl : (type, []) = x := by simpa using at_j
      have here : inode sb (writeInode sb s.marked (nodes.length + 1) d) (nodes.length + 1) = d :=
        inode_writeInode_same ..
      exact ⟨by rw [here], by rw [here], by rw [here]; rfl⟩
    have lt : j < nodes.length := by
      have := (List.getElem?_eq_some_iff.1 at_j).1
      simp only [List.length_append, List.length_singleton] at this
      omega
    rw [List.getElem?_append_left lt] at at_j
    refine (h.node j x at_j).of_apart apart (by omega) (by omega) ?_
    exact (h.types x (List.mem_of_getElem? at_j)).1
  · intro k hk outside
    rw [List.length_append, List.length_singleton] at outside
    rw [marked, inode_writeInode_ne _ (by omega)]
    exact h.unused k hk (by omega)
  · rw [need_append, need_empty]
    exact h.count

/-! ## Appending to an inode -/

theorem Holds.append (h : Holds s nodes) (at_j : nodes[j]? = some x) (pos : 0 < p.length) :
    wp (iappend (j + 1) p) (fun _ s' => Holds s' (nodes.set j (x.1, x.2 ++ p)))
      (fun _ _ => MAXFILE * BSIZE < x.2.length + p.length ∨
        FSSIZE < nmeta + need (nodes.set j (x.1, x.2 ++ p))) s := by
  have lt : j < nodes.length := (List.getElem?_eq_some_iff.1 at_j).1
  have hi : j + 1 < NINODES := by have := h.few; omega
  have here := h.node j x at_j
  have types := h.types x (List.mem_of_getElem? at_j)
  have len : (inode sb s.marked (j + 1)).size.toNat = x.2.length := by
    rw [← here.contents, length_contents]
  have blocks := need_set (x.1, x.2 ++ p) at_j
  rw [List.length_append] at blocks
  have := h.count
  refine wp_mono (wp_iappend h.tidy h.consistent hi (here.type ▸ types.1) (here.type ▸ types.2) pos)
    ?_ ?_
  · intro _ s' appended
    have apart := appended.apart
    obtain ⟨size, a, fields⟩ := appended.fields
    refine ⟨appended.follows.tidy, appended.follows.super.trans h.super, appended.consistent,
      by rw [appended.follows.freeinode, List.length_set, h.numbers],
      by rw [List.length_set]; exact h.few, ?_, ?_, ?_, ?_⟩
    · intro y hy
      obtain old | rfl := List.mem_or_eq_of_mem_set hy
      · exact h.types y old
      · exact types
    · intro k y at_k
      by_cases k_j : j = k
      · subst k_j
        obtain rfl : (x.1, x.2 ++ p) = y := by
          rwa [List.getElem?_set_self lt, Option.some.injEq] at at_k
        refine ⟨by rw [fields]; exact here.type, by rw [fields]; exact here.nlink, ?_⟩
        rw [appended.contents, here.contents]
      rw [List.getElem?_set_ne k_j] at at_k
      have := (List.getElem?_eq_some_iff.1 at_k).1
      have := h.few
      exact (h.node k y at_k).of_apart apart (by omega) (by omega)
        (h.types y (List.mem_of_getElem? at_k)).1
    · intro k hk outside
      rw [List.length_set] at outside
      rw [apart.inodes k hk (by omega)]
      exact h.unused k hk outside
    · have count := appended.count
      rw [len] at count
      omega
  · rintro _ _ (long | full)
    · rw [len] at long
      exact .inl long
    rw [len] at full
    right
    omega

/-! ## The program -/

/-- The bytes of a file, as far as `read` delivered them. -/
def HostFile.bytes (file : HostFile) : List Byte :=
  ((file.reads.getD []).map Subtype.val).flatten

def rootBytes (files : List HostFile) : List Byte :=
  newEntry dot ROOTINO ++ newEntry dotdot ROOTINO ++
    (files.zipIdx.map fun (file, k) => newEntry file.name (k + 2)).flatten

def tree (files : List HostFile) : List Node :=
  (T_DIR, rootBytes files) :: files.map fun file => (T_FILE, file.bytes)

/-- The inodes while the last file has `bytes` so far. -/
def growing (done : List HostFile) (file : HostFile) (bytes : List Byte) : List Node :=
  (T_DIR, rootBytes (done ++ [file])) ::
    ((done.map fun file => (T_FILE, file.bytes)) ++ [(T_FILE, bytes)])

variable {files done rest : List HostFile} {file : HostFile}

theorem length_newEntry (name : List Byte) (inum : ℕ) : (newEntry name inum).length = DESIZE := by
  simp [newEntry]

theorem rootBytes_append : rootBytes (done ++ [file]) =
    rootBytes done ++ newEntry file.name (done.length + 2) := by
  simp [rootBytes, List.zipIdx_append]

theorem length_rootBytes (files : List HostFile) :
    (rootBytes files).length = DESIZE * (files.length + 2) := by
  induction files using List.reverseRecOn with
  | nil =>
    rw [rootBytes, List.zipIdx_nil, List.map_nil, List.flatten_nil, List.append_nil,
      List.length_append, length_newEntry, length_newEntry]
    rfl
  | append_singleton files file ih =>
    rw [rootBytes_append, List.length_append, ih, length_newEntry, List.length_append,
      List.length_singleton]
    simp only [DESIZE, DIRSIZ]
    omega

theorem tree_append : tree (done ++ [file]) = growing done file file.bytes := by
  simp [tree, growing]

theorem length_tree : (tree files).length = files.length + 1 := by simp [tree]

theorem need_growing (bytes : List Byte) : need (growing done file bytes) =
    blocksOf (DESIZE * (done.length + 3)) + need (done.map fun file => (T_FILE, file.bytes)) +
      blocksOf bytes.length := by
  rw [growing, need_cons, need_append, length_rootBytes, List.length_append, List.length_singleton,
    Nat.add_assoc (blocksOf _)]
  rfl

theorem need_growing_mono {a b : List Byte} (le : a.length ≤ b.length) :
    need (growing done file a) ≤ need (growing done file b) := by
  rw [need_growing, need_growing]
  exact Nat.add_le_add_left (blocksOf_mono le) _

theorem need_tree (files : List HostFile) : need (tree files) =
    blocksOf (DESIZE * (files.length + 2)) +
      need (files.map fun file => (T_FILE, file.bytes)) := by
  rw [tree, need_cons, length_rootBytes]

theorem need_tree_mono : need (tree done) ≤ need (tree (done ++ rest)) := by
  have longer : DESIZE * (done.length + 2) ≤ DESIZE * ((done ++ rest).length + 2) := by
    rw [List.length_append]
    exact Nat.mul_le_mul_left _ (by omega)
  have := blocksOf_mono longer
  rw [need_tree, need_tree, List.map_append, need_append]
  omega

/-- A name has a slash, a file cannot be opened or is too long, or there is too little space. -/
def Stopped (files : List HostFile) : Prop :=
  (∃ file ∈ files, slash ∈ file.arg ∨ file.reads = none ∨ MAXFILE * BSIZE < file.bytes.length) ∨
    FSSIZE < nmeta + need (tree files)

theorem Stopped.append (h : Stopped done) : Stopped (done ++ rest) := by
  obtain ⟨file, mem, bad⟩ | full := h
  · exact .inl ⟨file, List.mem_append_left _ mem, bad⟩
  · exact .inr (full.trans_le (Nat.add_le_add_left need_tree_mono _))

theorem wp_chunks (chunks : List Chunk) : ∀ {s : State} (acc : List Byte),
    Holds s (growing done file acc) →
    wp (forM chunks fun buf => iappend (done.length + 2) buf.val)
      (fun _ s' => Holds s' (growing done file (acc ++ (chunks.map Subtype.val).flatten)))
      (fun _ _ => MAXFILE * BSIZE < (acc ++ (chunks.map Subtype.val).flatten).length ∨
        FSSIZE < nmeta + need (growing done file (acc ++ (chunks.map Subtype.val).flatten))) s := by
  induction chunks with
  | nil =>
    intro s acc h
    rw [List.forM_nil, wp_pure]
    simpa using h
  | cons buf chunks ih =>
    intro s acc h
    have last : (growing done file acc)[done.length + 1]? = some (T_FILE, acc) := by
      simp [growing]
    have set : (growing done file acc).set (done.length + 1) (T_FILE, acc ++ buf.val) =
        growing done file (acc ++ buf.val) := by
      simp [growing]
    have step := h.append last buf.property.1
    rw [set] at step
    have longer : (acc ++ buf.val).length ≤
        (acc ++ ((buf :: chunks).map Subtype.val).flatten).length := by
      simp only [List.map_cons, List.flatten_cons, List.length_append]
      omega
    rw [List.forM_cons, wp_bind]
    refine wp_mono step (fun _ s' h' => ?_) ?_
    · have tail := ih (acc ++ buf.val) h'
      rw [List.append_assoc] at tail
      exact tail
    rintro _ _ (long | full)
    · rw [← List.length_append] at long
      exact .inl (long.trans_le longer)
    · exact .inr (full.trans_le (Nat.add_le_add_left (need_growing_mono longer) _))

theorem wp_addFile (h : Holds s (tree done)) (few : done.length + 2 < NINODES) :
    wp (addFile ROOTINO file) (fun _ s' => Holds s' (tree (done ++ [file])))
      (fun _ _ => Stopped (done ++ [file])) s := by
  have mem : file ∈ done ++ [file] := by simp
  rw [addFile, wp_ite]
  refine ⟨fun bad => (wp_throw ..).2 (.inl ⟨file, mem, .inl bad⟩), fun _ => ?_⟩
  cases reads : file.reads with
  | none => exact (wp_throw ..).2 (.inl ⟨file, mem, .inr (.inl reads)⟩)
  | some chunks =>
    have bytes : file.bytes = (chunks.map Subtype.val).flatten := by rw [HostFile.bytes, reads]; rfl
    dsimp only
    rw [wp_bind]
    refine wp_total (h.alloc (by rw [length_tree]; exact few) T_FILE (by decide)) ?_
    rintro _ s₁ ⟨rfl, h₁⟩
    rw [length_tree] at *
    have entry : 0 < (newEntry file.name (done.length + 1 + 1)).length := by
      rw [length_newEntry]
      decide
    have set : (tree done ++ [(T_FILE, [])]).set 0
        (T_DIR, rootBytes done ++ newEntry file.name (done.length + 1 + 1)) =
        growing done file [] := by
      rw [growing, rootBytes_append]
      rfl
    have step := h₁.append (j := 0) (x := (T_DIR, rootBytes done)) rfl entry
    rw [set] at step
    rw [wp_bind]
    refine wp_mono step (fun _ s₂ h₂ => ?_) ?_
    · refine wp_mono (wp_chunks chunks [] h₂) (fun _ s₃ h₃ => ?_) ?_
      · rw [tree_append, bytes]
        exact h₃
      rintro _ _ (long | full)
      · exact .inl ⟨file, mem, .inr (.inr (by rw [bytes]; exact long))⟩
      right
      rw [tree_append, bytes]
      exact full
    rintro _ _ (long | full)
    · rw [length_rootBytes, length_newEntry] at long
      simp only [MAXFILE, NINDIRECT, NDIRECT, BSIZE, DESIZE, DIRSIZ, NINODES] at long few
      omega
    right
    rw [tree_append]
    exact full.trans_le (Nat.add_le_add_left (need_growing_mono (Nat.zero_le _)) _)

theorem wp_addFiles (rest : List HostFile) : ∀ {s : State} {done : List HostFile},
    Holds s (tree done) → (done ++ rest).length + 1 < NINODES →
    wp (forM rest (addFile ROOTINO)) (fun _ s' => Holds s' (tree (done ++ rest)))
      (fun _ _ => Stopped (done ++ rest)) s := by
  induction rest with
  | nil =>
    intro s done h _
    rw [List.forM_nil, wp_pure, List.append_nil]
    exact h
  | cons file rest ih =>
    intro s done h few
    rw [List.length_append, List.length_cons] at few
    rw [List.forM_cons, wp_bind, List.append_cons]
    refine wp_mono (wp_addFile h (by omega)) (fun _ s' h' => ?_) fun _ _ bad => bad.append
    refine ih h' ?_
    simp only [List.length_append, List.length_singleton]
    omega

/-- The image with its super block and nothing else. -/
def blank : State where
  disk := update (fun _ => Block.zero) 1 sbBlock
  sectors := FSSIZE
  freeinode := 1
  freeblock := nmeta

theorem disk_blank {b : ℕ} (ne : b ≠ 1) : blank.disk b = Block.zero := by
  simp [blank, ne]

theorem tidy_blank : Tidy blank where
  sectors := rfl
  low := le_rfl
  high := by decide
  fresh := fun b (hb : nmeta ≤ b) => disk_blank (Nat.lt_of_lt_of_le (by decide) hb).ne'

theorem inode_blank (hi : i < NINODES) : (inode sb blank.marked i).type = 0 := by
  have low : 2 + nlog ≤ sb.IBLOCK i := Nat.le_add_left ..
  have block : blank.disk (sb.IBLOCK i) = Block.zero :=
    disk_blank (Nat.lt_of_lt_of_le (by decide) low).ne'
  rw [inode_marked hi, inode, block]
  simp only [Block.dinode, Dinode.ofWords, Block.word_zero]
  rfl

theorem holds_blank : Holds blank [] where
  tidy := tidy_blank
  super := by simp [blank]
  consistent :=
    { extent := fun i hi type => absurd (inode_blank hi) type
      distinct := fun i hi _ _ type => absurd (inode_blank hi) type
      area := fun i hi type => absurd (inode_blank hi) type
      bitmap := fun b hb => by
        rw [inUse_marked hb, decide_eq_true_eq]
        refine ⟨.inl, fun h => h.resolve_right ?_⟩
        rintro ⟨i, hi, type, -⟩
        exact type (inode_blank hi) }
  numbers := rfl
  few := by decide
  types := fun _ hx => by cases hx
  node := fun j x at_j => by simp at at_j
  unused := fun i hi _ => inode_blank hi
  count := rfl

theorem wp_zero {E : String → State → Prop} :
    wp (forRange 0 FSSIZE fun i => wsect i Block.zero)
      (fun _ s => s = ⟨fun _ => Block.zero, FSSIZE, 1, nmeta⟩) E
      ⟨fun _ => Block.zero, 0, 1, nmeta⟩ := by
  refine wp_forRange (I := fun i s => s = (⟨fun _ => Block.zero, i, 1, nmeta⟩ : State)) ?_
    (Nat.zero_le _) rfl
  rintro i s hi rfl
  rw [wsect, wp_modify, seek_of_le (Nat.le_of_lt hi), max_eq_right (Nat.le_succ i)]
  congr 1
  exact update_eq_self i _

/-- The size of the root directory is a whole number of blocks, with one byte at least to spare. -/
def rounded (len : ℕ) : Word := BitVec.ofNat 32 ((len / BSIZE + 1) * BSIZE)

/-- The end of a run: the image of the files, with its free map and the root directory's size
rounded up. -/
def Built (files : List HostFile) (s' : State) : Prop :=
  ∃ s, Holds s (tree files) ∧ s'.freeinode = s.freeinode ∧
    s'.disk = writeInode sb s.marked ROOTINO
      { inode sb s.marked ROOTINO with size := rounded (rootBytes files).length }

theorem wp_main (few : files.length + 1 < NINODES) :
    wp (main files) (fun _ s' => Built files s') (fun _ _ => Stopped files) State.init := by
  rw [main, wp_bind, wp_modify]
  apply wp_next wp_zero
  rintro _ _ rfl
  rw [wp_bind, wp_wsect (by decide) rfl, wp_bind]
  have space {n : ℕ} {p q : List Byte} (len : p.length = DESIZE * n) (q_len : q.length = DESIZE)
      (hn : n < 2) : ¬ (MAXFILE * BSIZE < p.length + q.length ∨
        FSSIZE < nmeta + need ([(T_DIR, p)].set 0 (T_DIR, p ++ q))) := by
    rw [List.set_cons_zero, need_cons, List.length_append, len, q_len, not_or, not_lt, not_lt]
    obtain rfl | rfl : n = 0 ∨ n = 1 := by omega
    · exact ⟨by decide, by decide⟩
    · exact ⟨by decide, by decide⟩
  have root := holds_blank.alloc (by decide) T_DIR (by decide)
  refine wp_total root ?_
  rintro rootino s₁ ⟨number, h₁⟩
  obtain rfl : rootino = ROOTINO := number
  rw [if_neg (by decide), wp_bind]
  have first := h₁.append (j := 0) (x := (T_DIR, [])) (p := newEntry dot ROOTINO) rfl
    (by rw [length_newEntry]; decide)
  refine wp_mono first ?_ fun _ _ bad => absurd bad
    (space (n := 0) rfl (length_newEntry ..) (by decide))
  intro _ s₂ h₂
  rw [wp_bind]
  have second := h₂.append (j := 0) (x := (T_DIR, newEntry dot ROOTINO))
    (p := newEntry dotdot ROOTINO) rfl (by rw [length_newEntry]; decide)
  refine wp_mono second ?_ fun _ _ bad =>
    absurd bad (space (n := 1) (length_newEntry ..) (length_newEntry ..) (by decide))
  intro _ s₃ h₃
  rw [wp_bind]
  have start : Holds s₃ (tree []) := by
    rw [tree, rootBytes, List.zipIdx_nil, List.map_nil, List.flatten_nil, List.append_nil]
    exact h₃
  refine wp_imp (wp_addFiles files start (by simpa using few)) ?_
  intro _ s h
  rw [List.nil_append] at h
  have contents : (inode sb s.marked ROOTINO).contents s.marked = rootBytes files :=
    (h.node 0 _ rfl).contents
  have size : (inode sb s.marked ROOTINO).size.toNat = (rootBytes files).length := by
    rw [← contents, length_contents]
  rw [wp_bind, fixRoot, wp_bind, wp_rinode h.tidy (by decide), wp_winode h.tidy (by decide), wp_bind,
    wp_get, balloc, size]
  set d : Dinode := { inode sb s.marked ROOTINO with
    size := BitVec.ofNat 32 (((rootBytes files).length / BSIZE + 1) * BSIZE) }
  have tidy := h.tidy.writeInode (i := ROOTINO) (by decide) d
  rw [if_neg (Nat.not_le.2 (Nat.lt_of_le_of_lt tidy.high (by decide))),
    wp_wsect (by decide) tidy.sectors]
  exact ⟨s, h, rfl, marked_writeInode (by decide) d⟩

/-! ## The finished image -/

/-- The files as they were given, and a root directory that has the blocks of its entries. -/
structure Image (files : List HostFile) (disk : Disk) : Prop where
  super : disk 1 = sbBlock
  root : Mapped sb ROOTINO disk (inode sb disk ROOTINO) (nblk (rootBytes files).length)
    (nblk (rootBytes files).length)
  dir : (inode sb disk ROOTINO).type = T_DIR
  nlink : (inode sb disk ROOTINO).nlink = 1
  size : (inode sb disk ROOTINO).size.toNat = ((rootBytes files).length / BSIZE + 1) * BSIZE
  bytes : (List.range (rootBytes files).length).map ((inode sb disk ROOTINO).byte disk) =
    rootBytes files
  file : ∀ j file, files[j]? = some file → IsNode disk (j + 2) (T_FILE, file.bytes)
  extent : ∀ i < sb.ninodes, i ≠ ROOTINO → (inode sb disk i).type ≠ 0 →
    Extent ((inode sb disk i).onDisk disk) (nblk (inode sb disk i).size.toNat)

theorem Built.image (few : files.length + 1 < NINODES) (h : Built files s') : Image files s'.disk := by
  obtain ⟨s, holds, -, written⟩ := h
  have root : IsNode s.marked ROOTINO (T_DIR, rootBytes files) := holds.node 0 _ rfl
  have alloc : (inode sb s.marked ROOTINO).type ≠ 0 := by
    rw [root.type]
    exact (by decide : T_DIR ≠ 0)
  have contents : (inode sb s.marked ROOTINO).contents s.marked = rootBytes files := root.contents
  have len : (inode sb s.marked ROOTINO).size.toNat = (rootBytes files).length := by
    rw [← contents, length_contents]
  have mapped := (locked_view holds.consistent (by decide) alloc).mapped
  simp only [entry_view, disk_view, len] at mapped
  obtain ⟨mapped', apart, -, bytes⟩ := mapped.writeInode layout (rounded (rootBytes files).length)
  have here : inode sb (writeInode sb s.marked ROOTINO _) ROOTINO = _ := inode_writeInode_same ROOTINO
    { inode sb s.marked ROOTINO with size := rounded (rootBytes files).length }
  have super := super_writeInode (i := ROOTINO) s.marked
    { inode sb s.marked ROOTINO with size := rounded (rootBytes files).length }
  rw [← written] at mapped' apart bytes here super
  refine ⟨?_, ?_, ?_, ?_, ?_, ?_, ?_, ?_⟩
  · rw [super, marked_of_ne (by decide), holds.super]
  · rw [here]
    exact mapped'
  · rw [here]
    exact root.type
  · rw [here]
    exact root.nlink
  · rw [here]
    show (rounded _).toNat = _
    have : (rootBytes files).length < 2 ^ 31 := by
      rw [length_rootBytes]
      simp only [DESIZE, DIRSIZ, NINODES] at few ⊢
      omega
    rw [rounded, BitVec.toNat_ofNat, Nat.mod_eq_of_lt]
    simp only [BSIZE]
    omega
  · rw [here]
    rw [Dinode.contents, len] at contents
    conv_rhs => rw [← contents]
    exact List.map_congr_left fun k _ => bytes k
  · intro j file at_j
    have lt := (List.getElem?_eq_some_iff.1 at_j).1
    refine (holds.node (j + 1) (T_FILE, file.bytes) ?_).of_apart apart ?_ ?_
      (by decide : T_FILE ≠ 0)
    · simp [tree, at_j]
    · omega
    · simp
  · intro i hi ne type
    rw [apart.inodes i hi ne] at type
    rw [apart.onDisk hi ne type, apart.inodes i hi ne]
    exact holds.consistent.extent i hi type

theorem exists_image (few : files.length + 1 < NINODES) (accepted : ¬ Stopped files) :
    ∃ s, exec (main files) State.init = (.ok ⟨⟩, s) ∧ Image files s.disk := by
  have run := wp_mono (wp_main few) (fun _ _ h => h) fun _ _ bad => accepted bad
  obtain ⟨_, s, ended, built⟩ := exists_ok_of_wp run
  exact ⟨s, ended, built.image few⟩

theorem nblk_rounded (files : List HostFile) :
    nblk (((rootBytes files).length / BSIZE + 1) * BSIZE) =
      nblk (rootBytes files).length +
        if (files.length + 2) % (BSIZE / DESIZE) = 0 then 1 else 0 := by
  rw [length_rootBytes, nblk, nblk]
  simp only [BSIZE, DESIZE, DIRSIZ]
  split <;> omega

theorem Image.consistent (h : Image files disk)
    (odd : (files.length + 2) % (BSIZE / DESIZE) ≠ 0) : Consistent sb disk := by
  have account := h.root.account
  rw [update_eq_self] at account
  refine consistent_of_accounted account fun i hi type => ?_
  by_cases root : i = ROOTINO
  · subst root
    rw [h.size, nblk_rounded, if_neg odd]
    exact ⟨h.root.data, h.root.indirect⟩
  · exact h.extent i hi root type

theorem Image.unmapped (h : Image files disk) (even : (files.length + 2) % (BSIZE / DESIZE) = 0) :
    nblk (rootBytes files).length < nblk (inode sb disk ROOTINO).size.toNat ∧
      (inode sb disk ROOTINO).onDisk disk (.data (nblk (rootBytes files).length)) = none := by
  rw [h.size, nblk_rounded, if_pos even]
  refine ⟨Nat.lt_succ_self _, ?_⟩
  rw [← Option.not_isSome_iff_eq_none, h.root.data]
  exact lt_irrefl _

/-! ## Well-formed images -/

structure WellFormed (s : State) : Prop where
  inums : ∀ i, 1 ≤ i → i < s.freeinode → i < sb.ninodes
  area : ∀ i < sb.ninodes, (inode sb s.disk i).type ≠ 0 → ∀ p b,
    (inode sb s.disk i).onDisk s.disk p = some b → sb.nmeta ≤ b ∧ b < sb.size
  /-- Every block below the size of an inode has an address. -/
  mapped : ∀ i < sb.ninodes, (inode sb s.disk i).type ≠ 0 →
    ∀ k < nblk (inode sb s.disk i).size.toNat, ((inode sb s.disk i).onDisk s.disk (.data k)).isSome
  distinct : ∀ i < sb.ninodes, ∀ j < sb.ninodes, (inode sb s.disk i).type ≠ 0 →
    (inode sb s.disk j).type ≠ 0 → ∀ p q b, (inode sb s.disk i).onDisk s.disk p = some b →
      (inode sb s.disk j).onDisk s.disk q = some b → i = j ∧ p = q
  /-- The free map marks the metadata and the blocks of files, and nothing else. -/
  bitmap : ∀ b < sb.size, inUse sb s.disk b = true ↔ b < sb.nmeta ∨
    ∃ i < sb.ninodes, (inode sb s.disk i).type ≠ 0 ∧ ∃ p, (inode sb s.disk i).onDisk s.disk p = some b

/-! Every input file takes one inode number, whatever else happens. -/

/-- The program leaves the counter of inodes as it is. -/
def KeepsCount {α : Type} (m : MkfsM α) : Prop :=
  ∀ s, wp m (fun _ s' => s'.freeinode = s.freeinode) (fun _ _ => True) s

namespace KeepsCount

variable {α β : Type}

theorem pure (a : α) : KeepsCount (pure a) := fun _ => (wp_pure ..).2 rfl

theorem throw (e : String) : KeepsCount (throw e : MkfsM α) := fun _ => (wp_throw ..).2 trivial

theorem bind {m : MkfsM α} {f : α → MkfsM β} (first : KeepsCount m) (rest : ∀ a, KeepsCount (f a)) :
    KeepsCount (m >>= f) := fun s => by
  rw [wp_bind]
  refine wp_mono (first s) (fun a s' same => ?_) fun _ _ _ => trivial
  exact wp_mono (rest a s') (fun _ _ later => later.trans same) fun _ _ _ => trivial

theorem ite {c : Prop} [Decidable c] {m m' : MkfsM α} (yes : KeepsCount m) (no : KeepsCount m') :
    KeepsCount (if c then m else m') := by
  split
  · exact yes
  · exact no

theorem rsect (sec : ℕ) : KeepsCount (rsect sec) := fun s => by
  rw [Mkfs.rsect, wp_bind, wp_get]
  exact ite (throw _) (pure _) s

theorem wsect (sec : ℕ) (buf : Block) : KeepsCount (wsect sec buf) := fun s => by
  rw [Mkfs.wsect, wp_modify]

theorem rinode (i : ℕ) : KeepsCount (rinode i) := (rsect _).bind fun _ => pure _

theorem winode (i : ℕ) (d : Dinode) : KeepsCount (winode i d) := (rsect _).bind fun _ => wsect _ _

theorem nextBlock : KeepsCount nextBlock := fun s => by
  rw [Mkfs.nextBlock, wp_bind, wp_get, wp_bind, wp_modify, wp_pure]

theorem fillAddr (d : Dinode) (k : ℕ) : KeepsCount (fillAddr d k) :=
  ite (nextBlock.bind fun _ => pure _) (pure _)

theorem mapBlock (d : Dinode) (k : ℕ) : KeepsCount (mapBlock d k) := by
  unfold Mkfs.mapBlock
  refine ite ((fillAddr _ _).bind fun _ => pure _) ((fillAddr _ _).bind fun d' => ?_)
  refine (rsect _).bind fun buf => ite ?_ (pure _)
  exact nextBlock.bind fun _ => (wsect _ _).bind fun _ => pure _

theorem appendLoop : ∀ (fuel : ℕ) (d : Dinode) (off : ℕ) (p : List Byte),
    KeepsCount (appendLoop fuel d off p)
  | 0, _, _, _ => pure _
  | fuel + 1, d, off, p => by
      unfold Mkfs.appendLoop
      refine ite (pure _) (ite (throw _) ((mapBlock _ _).bind fun out => ?_))
      exact (rsect _).bind fun _ => (wsect _ _).bind fun _ => appendLoop fuel _ _ _

theorem iappend (i : ℕ) (p : List Byte) : KeepsCount (iappend i p) :=
  (rinode _).bind fun _ => (appendLoop _ _ _ _).bind fun _ => winode _ _

theorem forM {γ : Type} {f : γ → MkfsM PUnit} (each : ∀ x, KeepsCount (f x)) :
    ∀ l : List γ, KeepsCount (forM l f)
  | [] => pure _
  | x :: l => (each x).bind fun _ => forM each l

end KeepsCount

theorem wp_ialloc_count (type : Short) :
    wp (ialloc type) (fun _ s' => s'.freeinode = s.freeinode + 1) anyStop s := by
  rw [ialloc, wp_bind, wp_get, wp_bind, wp_modify, wp_bind]
  refine wp_mono (KeepsCount.winode _ _ _) (fun _ s' same => ?_) fun _ _ _ => trivial
  rw [wp_pure, same]

theorem wp_addFile_count (rootino : ℕ) (file : HostFile) :
    wp (addFile rootino file) (fun _ s' => s'.freeinode = s.freeinode + 1) anyStop s := by
  rw [addFile, wp_ite]
  refine ⟨fun _ => (wp_throw ..).2 trivial, fun _ => ?_⟩
  cases file.reads with
  | none => exact (wp_throw ..).2 trivial
  | some chunks =>
    dsimp only
    rw [wp_bind]
    refine wp_mono (wp_ialloc_count T_FILE) (fun inum s₁ counted => ?_) fun _ _ _ => trivial
    have rest : KeepsCount (do
        iappend rootino (newEntry file.name inum)
        forM chunks fun buf => iappend inum buf.val) :=
      (KeepsCount.iappend _ _).bind fun _ => .forM (fun _ => .iappend _ _) chunks
    exact wp_mono (rest s₁) (fun _ _ same => same.trans counted) fun _ _ _ => trivial

theorem wp_addFiles_count (rootino : ℕ) (files : List HostFile) : ∀ {s : State},
    wp (forM files (addFile rootino)) (fun _ s' => s'.freeinode = s.freeinode + files.length)
      anyStop s := by
  induction files with
  | nil =>
    intro s
    rw [List.forM_nil, wp_pure]
    rfl
  | cons file files ih =>
    intro s
    rw [List.forM_cons, wp_bind]
    refine wp_mono (wp_addFile_count rootino file) (fun _ s₁ counted => ?_) fun _ _ _ => trivial
    refine wp_mono ih (fun _ s₂ later => ?_) fun _ _ _ => trivial
    rw [later, counted, List.length_cons]
    omega

theorem wp_main_count (files : List HostFile) :
    wp (main files) (fun _ s' => s'.freeinode = files.length + 2) anyStop State.init := by
  rw [main, wp_bind, wp_modify]
  apply wp_next wp_zero
  rintro _ _ rfl
  rw [wp_bind, wp_wsect (by decide) rfl, wp_bind]
  refine wp_mono (wp_ialloc_count T_DIR) (fun rootino s₁ counted => ?_) fun _ _ _ => trivial
  rw [wp_ite]
  refine ⟨fun _ => (wp_throw ..).2 trivial, fun _ => ?_⟩
  rw [wp_bind]
  refine wp_mono (KeepsCount.iappend _ _ _) (fun _ s₂ same₂ => ?_) fun _ _ _ => trivial
  rw [wp_bind]
  refine wp_mono (KeepsCount.iappend _ _ _) (fun _ s₃ same₃ => ?_) fun _ _ _ => trivial
  rw [wp_bind]
  refine wp_mono (wp_addFiles_count rootino files) (fun _ s₄ added => ?_) fun _ _ _ => trivial
  have rest : KeepsCount (fixRoot rootino) :=
    (KeepsCount.rinode _).bind fun _ => KeepsCount.winode _ _
  rw [wp_bind]
  refine wp_mono (rest s₄) (fun _ s₅ same₅ => ?_) fun _ _ _ => trivial
  have last (used : ℕ) : KeepsCount (balloc used) := .ite (.throw _) (.wsect _ _)
  rw [wp_bind, wp_get]
  refine wp_mono (last _ s₅) (fun _ s₆ same₆ => ?_) fun _ _ _ => trivial
  rw [same₆, same₅, added, same₃, same₂, counted]
  exact Nat.add_comm 2 files.length

/-- The image that `mkfs` makes is well formed exactly if there are fewer than `NINODES - 1` files
and the root's entries do not end at the end of a block. -/
theorem wellFormed_iff {files : List HostFile} {s : State}
    (normal : exec (main files) State.init = (.ok ⟨⟩, s)) :
    WellFormed s ↔ files.length + 1 < NINODES ∧ (files.length + 2) % (BSIZE / DESIZE) ≠ 0 := by
  have count := wp_of_ok (wp_main_count files) normal
  constructor
  · intro h
    have few : files.length + 1 < NINODES := by
      have := h.inums (files.length + 1) (by omega) (by omega)
      exact this
    have built := wp_of_ok (wp_main few) normal
    have image := built.image few
    refine ⟨few, fun full => ?_⟩
    obtain ⟨below, missing⟩ := image.unmapped full
    have there := h.mapped ROOTINO (by decide) (by rw [image.dir]; decide) _ below
    rw [missing] at there
    cases there
  rintro ⟨few, odd⟩
  have built := wp_of_ok (wp_main few) normal
  have image := built.image few
  have consistent := image.consistent odd
  exact
    { inums := fun i _ lt => by
        show i < NINODES
        omega
      area := consistent.area
      mapped := fun i hi type k hk => ((consistent.extent i hi type).data k).2 hk
      distinct := consistent.distinct
      bitmap := consistent.bitmap }

/-- The file `_cat`, read in two pieces. -/
def catFile : HostFile where
  arg := [0x5f, 0x63, 0x61, 0x74]
  terminated := by decide
  reads := some [⟨[1, 2, 3], by decide⟩, ⟨[4], by decide⟩]

theorem wellFormed_iff_cat :
    ∃ s, exec (main [catFile]) State.init = (.ok ⟨⟩, s) ∧ WellFormed s := by
  have accepted : ¬ Stopped [catFile] := by
    rintro (bad | full)
    · exact absurd bad (by decide)
    rw [need_tree] at full
    exact absurd full (by decide)
  obtain ⟨s, ended, -⟩ := exists_image (by decide) accepted
  exact ⟨s, ended, (wellFormed_iff ended).2 (by decide)⟩

/-- Thirty empty files, `a0` to `c9`. -/
def thirtyFiles : List HostFile := (List.finRange 30).map fun k : Fin 30 =>
  { arg := [BitVec.ofNat 8 (0x61 + k / 10), BitVec.ofNat 8 (0x30 + k % 10)]
    terminated := by
      revert k
      decide
    reads := some [] }

/-- The root directory of thirty files fills one block; its size says two, and the second has no
address. -/
theorem thirtyFiles_unmapped : ∃ s, exec (main thirtyFiles) State.init = (.ok ⟨⟩, s) ∧
    (inode sb s.disk ROOTINO).type = T_DIR ∧ nblk (inode sb s.disk ROOTINO).size.toNat = 2 ∧
    (inode sb s.disk ROOTINO).onDisk s.disk (.data 1) = none := by
  have accepted : ¬ Stopped thirtyFiles := by
    have space : need (tree thirtyFiles) = 1 := by
      rw [need_tree]
      decide
    have plain : ∀ file ∈ thirtyFiles,
        ¬ (slash ∈ file.arg ∨ file.reads = none ∨ MAXFILE * BSIZE < file.bytes.length) := by
      intro file mem
      obtain ⟨k, -, rfl⟩ := List.mem_map.1 mem
      have name : slash ∉ [BitVec.ofNat 8 (0x61 + k / 10), BitVec.ofNat 8 (0x30 + k % 10)] := by
        clear mem
        revert k
        decide
      rintro (bad | closed | long)
      · exact name bad
      · cases closed
      · exact absurd long (Nat.not_lt.2 (Nat.zero_le _))
    rintro (⟨file, mem, bad⟩ | full)
    · exact plain file mem bad
    rw [space] at full
    exact absurd full (by decide)
  obtain ⟨s, ended, image⟩ := exists_image (by decide) accepted
  have blocks : nblk (rootBytes thirtyFiles).length = 1 := by
    rw [length_rootBytes]
    decide
  obtain ⟨-, missing⟩ := image.unmapped (by decide)
  rw [blocks] at missing
  refine ⟨s, ended, image.dir, ?_, missing⟩
  rw [image.size, nblk_rounded, blocks]
  decide

end Xv6.Mkfs
