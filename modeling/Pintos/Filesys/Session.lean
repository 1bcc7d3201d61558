import Pintos.Lib.Execution
import Pintos.Filesys.Format

/-!
# The inode layer in use

Any sequence of calls of the inode layer on a freshly formatted device: files are created in new
sectors, opened, read, written, removed and closed.  Every open file behaves as a flat array of
bytes, as far as the first inode reaches.
-/

namespace Pintos.Filesys

open Execution Option

/-- The file system and the sectors in which files have been created. -/
structure Session where
  fs : Fs
  live : Finset Nat

/-- A call of the inode layer. -/
inductive Call
  | inodeCreate (length : Nat)
  | inodeOpen (sector : Nat)
  | inodeClose (inode : Ref)
  | inodeReadAt (inode : Ref) (buffer : Buffer) (size offset : Nat)
  | inodeWriteAt (inode : Ref) (buffer : Buffer) (size offset : Nat)
  | inodeRemove (inode : Ref)

namespace Session

/-- The caller has opened this inode. -/
def Handle (session : Session) (inode : Ref) : Prop :=
  inode ∈ session.fs.openInodes ∧ session.fs.freeMapFile ≠ some inode

instance (session : Session) (inode : Ref) : Decidable (session.Handle inode) :=
  inferInstanceAs (Decidable (_ ∧ _))

/-- The sector of a closed file that had been removed is free. -/
def closeInode (session : Session) (inode : Ref) : Option Session := do
  let node ← session.fs.inodes inode
  let fs ← session.fs.inodeClose inode
  some ⟨fs, if node.openCnt = 1 ∧ node.removed = true then session.live.erase node.sector
    else session.live⟩

/-- A file is created in a new sector, which is given back if that fails. -/
def createInode (session : Session) (length : Nat) : Option Session := do
  let (fs, allocated) ← session.fs.freeMapAllocate 1
  match allocated with
  | none => some { session with fs }
  | some sector => do
      let (fs, created) ← fs.inodeCreate sector length
      if created then
        some ⟨fs, insert sector session.live⟩
      else
        (fs.freeMapRelease sector 1).map fun fs => { session with fs }

/-- One call; `none` if the caller may not make it, or if it does not return. -/
def step (session : Session) : Call → Option Session
  | .inodeCreate length => session.createInode length
  | .inodeOpen sector =>
    if sector ∈ session.live then
      (session.fs.inodeOpen sector).map fun result => { session with fs := result.1 }
    else
      none
  | .inodeClose inode => if session.Handle inode then session.closeInode inode else none
  | .inodeReadAt inode buffer size offset =>
    if session.Handle inode then
      (session.fs.inodeReadAt inode buffer size offset).map fun result =>
        { session with fs := result.1 }
    else
      none
  | .inodeWriteAt inode buffer size offset =>
    if session.Handle inode then
      (session.fs.inodeWriteAt inode buffer size offset).map fun result =>
        { session with fs := result.1 }
    else
      none
  | .inodeRemove inode =>
    if session.Handle inode then
      (session.fs.inodeRemove inode).map fun fs => { session with fs }
    else
      none

def Valid (session : Session) : Prop :=
  ∃ owner, session.fs.Sound owner session.live

variable {ses next : Session} {r : Ref} {owner : Owner}

theorem view_of_handle (sound : ses.fs.Sound owner ses.live) (handle : ses.Handle r) :
    ∃ file view, file ∈ ses.live ∧ ses.fs.opens file = some view ∧ view.ref = r := by
  obtain ⟨node, held, is_listed⟩ := sound.listed r handle.1
  have opened := sound.opens_eq_some.mpr
    ⟨node, show ses.fs.OpenNode (Fs.viewOf r node).ref node from ⟨handle.1, held⟩, rfl, rfl⟩
  exact ⟨node.sector, Fs.viewOf r node, (is_listed.resolve_left handle.2).1, opened, rfl⟩

theorem closed_of_new {fs : Fs} {files : Set Nat} {file : Nat} (sound : fs.Sound owner files)
    (unnamed : file ∉ files) (alien : file ≠ freeMapSector) : fs.opens file = none := by
  cases opened : fs.opens file with
  | none => rfl
  | some view => exact ((sound.named_of_opens opened).elim alien unnamed).elim

/-- A session with perhaps one more file, which is closed. -/
structure Adds (ses next : Session) : Prop where
  opens : next.fs.opens = ses.fs.opens
  ages : Fs.Ages ses.fs next.fs
  content : ∀ file ∈ ses.live, next.fs.content file = ses.fs.content file
  live : ses.live ⊆ next.live
  new : ∀ file ∈ next.live, file ∈ ses.live ∨ next.fs.opens file = none

/-- The invariant after a file has been created, or not, and what stays as it was. -/
theorem createInode_some {len : Nat} (sound : ses.fs.Sound owner ses.live)
    (creates : ses.createInode len = some next) : next.Valid ∧ ses.Adds next := by
  rcases Fs.freeMapAllocate_head sound.ready with ⟨_, fails⟩ | ⟨sec, taken, takes, took⟩
  · simp only [createInode, fails, bind_eq_bind, bind_some] at creates
    cases creates
    exact ⟨⟨owner, sound⟩, rfl, .refl _, fun _ _ => rfl, Finset.Subset.refl _, fun _ => .inl⟩
  have owned := took.owned sound.ready
  obtain ⟨unnamed, alien⟩ := sound.took_new took
  have content_taken : ∀ file ∈ ses.live, taken.content file = ses.fs.content file :=
    fun file named => sound.content_kept (took.grows sound.ready).keeps named
  obtain ⟨sound, opens, ages⟩ := sound.took took
  have closed := closed_of_new sound unnamed alien
  rcases Nat.lt_or_ge len (2 ^ 31) with small | large
  · obtain ⟨s', owner', res, makes, created, made⟩ := Fs.inodeCreate_spec
      ⟨.inl alien, sound.ready, sound.fresh, owned⟩ small
    have content_made : ∀ file ∈ ses.live, s'.content file = ses.fs.content file := by
      intro file named
      rw [← content_taken file named]
      refine created.grows.keeps.content_of_belongs (fun _ => .inr) owned.2 ?_ (.inl ?_)
        (sound.stored file named)
      · rintro rfl
        exact unnamed named
      · exact sound.ne_mapSector named
    simp only [createInode, takes, makes, bind_eq_bind, bind_some] at creates
    cases made with
    | done stored _ _ _ =>
      cases creates
      obtain ⟨sound', opens', ages'⟩ := @Fs.Sound.created _ _ _ _ _ _
        (↑(insert sec ses.live)) sound alien owned.2 closed created
        (fun _ mem => by simpa using mem)
        (fun _ is_named _ => by simpa using Or.inr is_named) fun _ => stored
      refine ⟨⟨owner', sound'⟩, opens'.trans opens, ages.trans ages', content_made,
        Finset.subset_insert _ _, ?_⟩
      intro file mem
      rcases Finset.mem_insert.mp mem with rfl | prev
      · right
        rw [opens']
        exact closed
      · exact .inl prev
    | failed _ _ _ _ =>
      obtain ⟨res, frees, rfl⟩ := map_eq_some_iff.mp creates
      obtain ⟨sound', opens', ages'⟩ := sound.created alien owned.2 closed created
        (fun _ => .inr) (fun _ is_named _ => is_named) fun is_named => (unnamed is_named).elim
      obtain ⟨map, is_map⟩ : ∃ map, s'.freeMapFile = some map := by
        cases is_map : s'.freeMapFile with
        | some map => exact ⟨map, rfl⟩
        | none => simp [Fs.freeMapRelease, is_map] at frees
      have owned' := created.grows.owned owned
      obtain ⟨last, runs, freed, sound'', opens'', ages''⟩ := Fs.freeMapRelease_closed sound'
        is_map owned' alien (by rw [opens']; exact closed)
      obtain rfl := some.inj (runs.symm.trans frees)
      rw [Set.sdiff_singleton_eq_self unnamed] at sound''
      refine ⟨⟨owner', sound''⟩, opens''.trans (opens'.trans opens), (ages.trans ages').trans ages'',
        ?_, Finset.Subset.refl _, fun _ => .inl⟩
      intro file named
      rw [← content_made file named]
      exact sound'.content_kept (freed.keeps owned'.2) named
  · have fails : taken.inodeCreate sec len = none := if_pos large
    simp [createInode, takes, fails] at creates

theorem valid_of_closeInode (sound : ses.fs.Sound owner ses.live)
    (handle : ses.Handle r) (closes : ses.closeInode r = some next) :
    next.Valid := by
  obtain ⟨file, view, named, opened, rfl⟩ := view_of_handle sound handle
  obtain ⟨node, here⟩ := sound.present named opened
  have count : view.count = node.openCnt := by rw [← here.isView]; rfl
  have removed : view.removed = node.removed := by rw [← here.isView]; rfl
  simp only [closeInode, here.listed.2, bind_eq_bind, bind_some] at closes
  obtain ⟨s', runs, is_next⟩ := bind_eq_some_iff.mp closes
  cases is_next
  obtain ⟨files, sound', _, eff⟩ := Fs.inodeClose_some sound named opened runs
  refine ⟨owner, ?_⟩
  cases eff with
  | shared many _ _ =>
    rw [if_neg fun single => by omega]
    exact sound'
  | last _ kept _ _ =>
    rw [if_neg fun gone => by rw [← removed, kept] at gone; cases gone.2]
    exact sound'
  | removed single gone _ _ _ =>
    rw [if_pos ⟨count ▸ single, removed ▸ gone⟩, here.sector, Finset.coe_erase]
    exact sound'

theorem valid_of_step {call : Call} (valid : ses.Valid) (steps : ses.step call = some next) :
    next.Valid := by
  obtain ⟨owner, sound⟩ := valid
  cases call with
  | inodeCreate len => exact (createInode_some sound steps).1
  | inodeOpen sec =>
    simp only [step] at steps
    split at steps
    · next named =>
        obtain ⟨s', view, opens, sound', _⟩ := Fs.inodeOpen_spec sound named
        rw [opens] at steps
        cases steps
        exact ⟨owner, sound'⟩
    · cases steps
  | inodeClose r =>
    simp only [step] at steps
    split at steps
    · next handle => exact valid_of_closeInode sound handle steps
    · cases steps
  | inodeReadAt r buf size ofs =>
    simp only [step] at steps
    split at steps
    · next handle =>
        obtain ⟨file, view, named, is_open, rfl⟩ := view_of_handle sound handle
        obtain ⟨⟨s', bytes, count⟩, reads, rfl⟩ := map_eq_some_iff.mp steps
        obtain ⟨rfl, _⟩ := Fs.inodeReadAt_some sound named is_open reads
        exact ⟨owner, sound⟩
    · cases steps
  | inodeWriteAt r buf size ofs =>
    simp only [step] at steps
    split at steps
    · next handle =>
        obtain ⟨file, view, named, is_open, rfl⟩ := view_of_handle sound handle
        obtain ⟨⟨s', count⟩, wrote, rfl⟩ := map_eq_some_iff.mp steps
        obtain ⟨owner', new, _⟩ := Fs.inodeWriteAt_some sound named is_open wrote
        exact ⟨owner', new.sound⟩
    · cases steps
  | inodeRemove r =>
    simp only [step] at steps
    split at steps
    · next handle =>
        obtain ⟨file, view, named, is_open, rfl⟩ := view_of_handle sound handle
        obtain ⟨node, here⟩ := sound.present named is_open
        simp only [Fs.inodeRemove, here.listed.2, map_some] at steps
        cases steps
        exact ⟨owner, (sound.touch here { node with removed := true } rfl here.opened.counted).1⟩
    · cases steps

/-- A freshly formatted device, with the root directory as its only file. -/
def start (fs : Fs) : Session := ⟨fs, {rootDirSector}⟩

theorem valid_of_run {size : Nat} {disk : Nat → Buffer} {garbage : Ref → Inode} {fs : Fs}
    (small : size ≤ 2 ^ 14) (format : Fs.filesysInit size disk garbage = some fs)
    {calls : List Call} (got : run step (start fs) calls = some ses) : ses.Valid := by
  obtain ⟨owner, made⟩ := Fs.filesysInit_some small format
  have valid : (start fs).Valid := by
    refine ⟨owner, ?_⟩
    rw [start, Finset.coe_singleton]
    exact made.sound
  exact run_invariant valid valid_of_step got

/-! ## Flat arrays -/

/-- If `inode_write_at` has to grow the file, `inode_extend_link` succeeds. -/
def GrowthSucceeds (ses : Session) (r : Ref) (size ofs : Nat) : Prop :=
  ∀ node, ses.fs.inodes r = some node → node.data.fileLength < size + ofs →
    ∃ s' tail, ses.fs.inodeExtendLink r (size + ofs - node.data.fileLength)
      (size + ofs) = some (s', some tail)

/-- Reading and writing an open file is reading and writing its array of bytes, and leaves every
other file alone. -/
structure ActsFlat (ses : Session) (r : Ref) (file : Nat) (buf : Buffer)
    (size ofs : Nat) : Prop where
  reads : ses.fs.inodeReadAt r buf size ofs =
    some (ses.fs, (ses.fs.content file).read buf size ofs,
      (ses.fs.content file).readCount size ofs)
  writes : ∃ s' written, ses.fs.inodeWriteAt r buf size ofs = some (s', written) ∧
      (ses.GrowthSucceeds r size ofs → written = size ∧
        s'.content file = (ses.fs.content file).write buf size ofs) ∧
      ∀ other ∈ ses.live, other ≠ file → s'.content other = ses.fs.content other

/-- In every state that calls of the inode layer reach, an open file behaves as a flat array of bytes
as far as the first inode reaches. -/
theorem inodes_actFlat {size : Nat} {disk : Nat → Buffer} {garbage : Ref → Inode} {fs : Fs}
    (small : size ≤ 2 ^ 14) (formatted : Fs.filesysInit size disk garbage = some fs)
    {calls : List Call} (reached : run step (start fs) calls = some session)
    (handle : session.Handle inode) {node : Inode} (held : session.fs.inodes inode = some node)
    (buffer : Buffer) {count offset : Nat} (inside : count + offset ≤ byteCapacity) :
    session.ActsFlat inode node.sector buffer count offset := by
  obtain ⟨owner, sound⟩ := valid_of_run small formatted reached
  obtain ⟨file, view, named, is_open, rfl⟩ := view_of_handle sound handle
  obtain ⟨cur, here⟩ := sound.present named is_open
  obtain rfl := some.inj (here.listed.2.symm.trans held)
  have within : offset + count ≤ 124928 := by
    rw [Nat.add_comm]
    exact inside
  rw [here.sector]
  refine ⟨Fs.inodeReadAt_spec sound named is_open buffer count offset (by omega), ?_⟩
  obtain ⟨after, put, writes⟩ := Fs.inodeWriteAt_isSome sound named is_open buffer within
  obtain ⟨owner', new, wrote⟩ := Fs.inodeWriteAt_some sound named is_open writes
  refine ⟨after, put, writes, ?_, ?_⟩
  · intro grows
    cases wrote with
    | done content _ => exact ⟨rfl, content⟩
    | failed more fails _ _ _ =>
      rw [here.length] at more fails
      obtain ⟨res, tail, works⟩ := grows cur held more
      rw [fails] at works
      cases works
  · intro o other_named different
    exact new.grows.keeps.content_of_belongs (fun _ => id) here.stored.owned.2 different
      (.inl (sound.ne_mapSector other_named)) (sound.stored o other_named)

def blankMemory : Ref → Inode :=
  fun _ => ⟨0, 0, false, 0, false, ⟨0, 0, 0, 0, 0, 0, fun _ => 0⟩, none⟩

theorem actsFlat_new_file : ∃ fs session node,
    Fs.filesysInit 16 (fun _ => Buffer.zeros) blankMemory = some fs ∧
      run step (start fs) [.inodeCreate 100, .inodeOpen 4] = some session ∧
      session.fs.inodes 6 = some node ∧ session.ActsFlat 6 node.sector Buffer.zeros 600 50 := by
  have runs : ((Fs.filesysInit 16 (fun _ => Buffer.zeros) blankMemory).bind fun fs =>
      (run step (start fs) [.inodeCreate 100, .inodeOpen 4]).bind fun session =>
        (session.fs.inodes 6).bind fun _ => if session.Handle 6 then some () else none).isSome =
      true := by
    decide +kernel
  obtain ⟨_, runs⟩ := isSome_iff_exists.mp runs
  obtain ⟨fs, made, runs⟩ := bind_eq_some_iff.mp runs
  obtain ⟨session, got, runs⟩ := bind_eq_some_iff.mp runs
  obtain ⟨node, held, runs⟩ := bind_eq_some_iff.mp runs
  split at runs
  · next handle =>
      exact ⟨fs, session, node, made, got, held,
        inodes_actFlat (by decide) made got handle held Buffer.zeros (by decide)⟩
  · cases runs

/-- The data blocks of live files are allocated, are no inodes of live files, and are all different. -/
def BlocksApart (ses : Session) : Prop :=
  ∀ file ∈ ses.live, ∀ other ∈ ses.live, ∀ i < (ses.fs.inodeAt file).sectors,
    let sector := (ses.fs.inodeAt file).block i
    ses.fs.Allocated sector ∧ sector ≠ other ∧ ∀ j < (ses.fs.inodeAt other).sectors,
      sector = (ses.fs.inodeAt other).block j → file = other ∧ i = j

/-- Calls of the inode layer, also those that fail, keep the sectors of the files apart. -/
theorem blocksApart_of_run {size : Nat} {disk : Nat → Buffer} {garbage : Ref → Inode} {fs : Fs}
    (small : size ≤ 2 ^ 14) (formatted : Fs.filesysInit size disk garbage = some fs)
    {calls : List Call} (reached : run step (start fs) calls = some ses) : ses.BlocksApart := by
  obtain ⟨owner, sound⟩ := valid_of_run small formatted reached
  intro file named other live i inside
  have stored := sound.stored file named
  have also := sound.stored other live
  have mine := stored.head.blocks.owned i inside
  refine ⟨mine.1, fun same => ?_, fun j below same => ?_⟩
  · have tags := mine.2
    rw [same, also.owned.2] at tags
    cases tags
  · have theirs := (also.head.blocks.owned j below).2
    rw [← same, mine.2] at theirs
    cases theirs
    exact ⟨rfl, stored.head.distinct i inside j below same⟩

theorem blocksApart_new_file : ∃ fs session,
    Fs.filesysInit 16 (fun _ => Buffer.zeros) blankMemory = some fs ∧
      run step (start fs) [.inodeCreate 100] = some session ∧ session.BlocksApart := by
  have runs : ((Fs.filesysInit 16 (fun _ => Buffer.zeros) blankMemory).bind fun fs =>
      run step (start fs) [.inodeCreate 100]).isSome = true := by
    decide +kernel
  obtain ⟨session, runs⟩ := isSome_iff_exists.mp runs
  obtain ⟨fs, made, got⟩ := bind_eq_some_iff.mp runs
  exact ⟨fs, session, made, got, blocksApart_of_run (by decide) made got⟩

end Session

end Pintos.Filesys
