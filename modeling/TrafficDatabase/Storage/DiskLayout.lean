import TrafficDatabase.Storage.DiskRegion

/-!
# Two regions of one disk

`Controller::init` opens the two disks, tests that the ranges for data and index do not
meet if the disks are the same, and makes the agents.  In that case it sets
`index_disk_offset` to the offset of the data, and one of the tests adds the size of the
index to it.  The agents get the offsets of the configuration.
-/

namespace TrafficDatabase

namespace Controller

open DiskRegion

/-- What `init` reads of its `InitData` for the disks.  A size is divided by its block size. -/
structure InitData where
  dataDiskName : String
  dataDiskOffset : ℕ
  dataDiskSize : ℕ
  dataBlockSize : ℕ
  indexDiskName : String
  indexDiskOffset : ℕ
  indexDiskSize : ℕ
  indexBlockSize : ℕ
  dataAgentNumEach : ℕ
  dataDiskManagerThreadNum : ℕ
  indexAgentNumEach : ℕ
  indexDiskManagerThreadNum : ℕ
  dataDiskSize_lt : dataDiskSize < 2 ^ 64
  indexDiskSize_lt : indexDiskSize < 2 ^ 64
  dataBlockSize_pos : 0 < dataBlockSize
  indexBlockSize_pos : 0 < indexBlockSize

/-- What `init` throws for the disks; the last one is from the constructor of the agents. -/
inductive InitError
  | openDataDisk | sameRange | openIndexDisk | dataBlocks | indexBlocks | agentBlocks
deriving DecidableEq, Repr

def InitError.what : InitError → String
  | openDataDisk => "open data disk failed"
  | sameRange => "index disk is not in the same range as data disk"
  | openIndexDisk => "open index disk failed"
  | dataBlocks => "data disk size is not multiple of data block size"
  | indexBlocks => "index disk size is not multiple of index block size"
  | agentBlocks => "Disk size wrong"

structure DiskMembers where
  dataDiskFd : Int
  dataDiskOffset : ℕ
  indexDiskFd : Int
  indexDiskOffset : ℕ
deriving DecidableEq, Repr

/-- The disks and their ranges, by what `open` returns for a name. -/
def openDisks (openDisk : String → Int) (init : InitData) : Except InitError DiskMembers :=
  let dataDiskFd := openDisk init.dataDiskName
  let dataDiskOffset := init.dataDiskOffset
  if dataDiskFd < 0 then .error .openDataDisk
  else if init.indexDiskName = init.dataDiskName then
    let indexDiskOffset := init.dataDiskOffset
    if (init.indexDiskOffset < init.dataDiskOffset ∧
          (indexDiskOffset + init.indexDiskSize) % 2 ^ 64 > init.dataDiskOffset) ∨
        (init.indexDiskOffset > init.dataDiskOffset ∧
          (dataDiskOffset + init.dataDiskSize) % 2 ^ 64 > init.indexDiskOffset) ∨
        init.indexDiskOffset = init.dataDiskOffset then
      .error .sameRange
    else .ok { dataDiskFd, dataDiskOffset, indexDiskFd := dataDiskFd, indexDiskOffset }
  else
    let indexDiskFd := openDisk init.indexDiskName
    if indexDiskFd < 0 then .error .openIndexDisk
    else .ok { dataDiskFd, dataDiskOffset, indexDiskFd, indexDiskOffset := init.indexDiskOffset }

def checkSizes (init : InitData) : Except InitError Unit :=
  if init.dataDiskSize % init.dataBlockSize ≠ 0 then .error .dataBlocks
  else if init.indexDiskSize % init.indexBlockSize ≠ 0 then .error .indexBlocks
  else .ok ()

/-- The constructor of `DiskAgent`. -/
def makeAgent (diskSize blockSize basicOffset : ℕ) (diskFd : Int) (hsize : diskSize < 2 ^ 64)
    (hblock : 0 < blockSize) : Except InitError DiskAgent :=
  if h : diskSize % blockSize = 0 then
    .ok { diskFd, diskSize, blockSize, basicOffset, diskSize_lt := hsize, blockSize_pos := hblock,
          wholeBlocks := h }
  else .error .agentBlocks

def dataAgents (init : InitData) (members : DiskMembers) : Except InitError (List DiskAgent) :=
  (List.range (init.dataAgentNumEach * init.dataDiskManagerThreadNum % 2 ^ 32)).mapM fun _ =>
    makeAgent init.dataDiskSize init.dataBlockSize init.dataDiskOffset members.dataDiskFd
      init.dataDiskSize_lt init.dataBlockSize_pos

def indexAgents (init : InitData) (members : DiskMembers) : Except InitError (List DiskAgent) :=
  (List.range (init.indexAgentNumEach * init.indexDiskManagerThreadNum % 2 ^ 32)).mapM fun _ =>
    makeAgent init.indexDiskSize init.indexBlockSize init.indexDiskOffset members.indexDiskFd
      init.indexDiskSize_lt init.indexBlockSize_pos

/-- The part of `init` that is about the disks. -/
def initDisks (openDisk : String → Int) (init : InitData) :
    Except InitError (DiskMembers × List DiskAgent × List DiskAgent) := do
  let members ← openDisks openDisk init
  checkSizes init
  let data ← dataAgents init members
  let index ← indexAgents init members
  return (members, data, index)

/-! ## The ranges -/

def InData (init : InitData) (address : ℕ) : Prop :=
  init.dataDiskOffset ≤ address ∧ address < init.dataDiskOffset + init.dataDiskSize

def InIndex (init : InitData) (address : ℕ) : Prop :=
  init.indexDiskOffset ≤ address ∧ address < init.indexDiskOffset + init.indexDiskSize

def RangesMeet (init : InitData) : Prop := ∃ address, InData init address ∧ InIndex init address

/-- If the layout is refused, the ranges meet, and if they meet, it is refused; if not, the
index is where the configuration says. -/
def LayoutKept (openDisk : String → Int) (init : InitData) : Prop :=
  (openDisks openDisk init = .error .sameRange ↔ RangesMeet init) ∧
    ∀ members, openDisks openDisk init = .ok members →
      members.indexDiskOffset = init.indexDiskOffset ∧
        ∀ agents, indexAgents init members = .ok agents → ∀ agent ∈ agents,
          agent.basicOffset = init.indexDiskOffset ∧ agent.diskSize = init.indexDiskSize

variable {openDisk : String → Int} {init : InitData} {members : DiskMembers}
  {agents : List DiskAgent}

theorem rangesMeet_iff (hdata : 0 < init.dataDiskSize) (hindex : 0 < init.indexDiskSize) :
    RangesMeet init ↔ init.indexDiskOffset < init.dataDiskOffset + init.dataDiskSize ∧
      init.dataDiskOffset < init.indexDiskOffset + init.indexDiskSize := by
  unfold RangesMeet InData InIndex
  constructor
  · rintro ⟨address, hinData, hinIndex⟩
    omega
  · rintro ⟨hbefore, hbehind⟩
    exact ⟨max init.dataDiskOffset init.indexDiskOffset, by omega, by omega⟩

theorem makeAgent_eq {diskSize blockSize basicOffset : ℕ} {diskFd : Int}
    {hsize : diskSize < 2 ^ 64} {hblock : 0 < blockSize} {agent : DiskAgent}
    (h : makeAgent diskSize blockSize basicOffset diskFd hsize hblock = .ok agent) :
    agent.basicOffset = basicOffset ∧ agent.diskSize = diskSize := by
  unfold makeAgent at h
  split_ifs at h
  cases h
  exact ⟨rfl, rfl⟩

theorem exists_of_bind {α β : Type} {first : Except InitError α} {next : α → Except InitError β}
    {result : β} (h : first >>= next = .ok result) :
    ∃ value, first = .ok value ∧ next value = .ok result := by
  cases first with
  | error failure => cases h
  | ok value => exact ⟨value, rfl, h⟩

/-- An agent of a loop has been made in one of its turns. -/
theorem exists_of_mapM {make : ℕ → Except InitError DiskAgent} {turns : List ℕ}
    (h : turns.mapM make = .ok agents) : ∀ agent ∈ agents, ∃ turn, make turn = .ok agent := by
  induction turns generalizing agents with
  | nil =>
      cases h
      simp
  | cons turn rest ih =>
      rw [List.mapM_cons] at h
      obtain ⟨first, hfirst, h⟩ := exists_of_bind h
      obtain ⟨others, hothers, h⟩ := exists_of_bind h
      cases h
      intro agent hagent
      rcases List.mem_cons.mp hagent with rfl | hagent
      · exact ⟨turn, hfirst⟩
      · exact ih hothers agent hagent

/-- The index agents have the range of the configuration. -/
theorem indexAgents_range (h : indexAgents init members = .ok agents) :
    ∀ agent ∈ agents, agent.basicOffset = init.indexDiskOffset ∧
      agent.diskSize = init.indexDiskSize := by
  intro agent hagent
  obtain ⟨turn, hmake⟩ := exists_of_mapM h agent hagent
  exact makeAgent_eq hmake

theorem dataAgents_range (h : dataAgents init members = .ok agents) :
    ∀ agent ∈ agents, agent.basicOffset = init.dataDiskOffset ∧
      agent.diskSize = init.dataDiskSize := by
  intro agent hagent
  obtain ⟨turn, hmake⟩ := exists_of_mapM h agent hagent
  exact makeAgent_eq hmake

section OneDisk

variable (hopen : 0 ≤ openDisk init.dataDiskName) (hsame : init.indexDiskName = init.dataDiskName)

include hopen hsame

/-- On one disk a layout is refused, or the offset of the data is taken for the index. -/
theorem openDisks_cases :
    openDisks openDisk init = .error .sameRange ∨
      init.indexDiskOffset ≠ init.dataDiskOffset ∧
        openDisks openDisk init = .ok ⟨openDisk init.dataDiskName, init.dataDiskOffset,
          openDisk init.dataDiskName, init.dataDiskOffset⟩ := by
  unfold openDisks
  simp only [if_neg (Int.not_lt.mpr hopen), if_pos hsame]
  split_ifs with h
  · exact .inl rfl
  · rw [not_or, not_or] at h
    exact .inr ⟨h.2.2, rfl⟩

variable (hdata : 0 < init.dataDiskSize) (hindex : 0 < init.indexDiskSize)
  (hdataEnd : init.dataDiskOffset + init.dataDiskSize < 2 ^ 64)

include hdata hindex hdataEnd

/-- The tests ask for the begin of the index before the end of the data, and if it is before
its begin, that a sum of numbers of both does not overflow. -/
theorem refused_iff :
    openDisks openDisk init = .error .sameRange ↔
      init.indexDiskOffset < init.dataDiskOffset + init.dataDiskSize ∧
        (init.indexDiskOffset < init.dataDiskOffset →
          init.dataDiskOffset + init.indexDiskSize < 2 ^ 64) := by
  have hsize := init.indexDiskSize_lt
  have hsum : (init.dataDiskOffset + init.indexDiskSize) % 2 ^ 64 > init.dataDiskOffset ↔
      init.dataDiskOffset + init.indexDiskSize < 2 ^ 64 := by
    omega
  unfold openDisks
  simp only [if_neg (Int.not_lt.mpr hopen), if_pos hsame, Nat.mod_eq_of_lt hdataEnd, hsum]
  split_ifs with h
  · refine iff_of_true rfl ?_
    omega
  · refine iff_of_false (by simp) ?_
    omega

/-- **The layout of one disk**: the tests and the members are right if the ranges meet and
the tests see it, and for no layout that is accepted. -/
theorem layoutKept_iff :
    LayoutKept openDisk init ↔ RangesMeet init ∧
      (init.indexDiskOffset < init.dataDiskOffset →
        init.dataDiskOffset + init.indexDiskSize < 2 ^ 64) := by
  have hrefused := refused_iff hopen hsame hdata hindex hdataEnd
  have hmeet := rangesMeet_iff hdata hindex
  unfold LayoutKept
  rcases openDisks_cases hopen hsame with herror | ⟨hne, hok⟩
  · have htests := hrefused.mp herror
    constructor
    · exact fun hkept => ⟨hkept.1.mp herror, htests.2⟩
    · rintro ⟨hmeets, -⟩
      refine ⟨iff_of_true herror hmeets, fun members hmembers => ?_⟩
      rw [herror] at hmembers
      cases hmembers
  · constructor
    · intro hkept
      exact absurd (hkept.2 _ hok).1.symm hne
    · rintro ⟨hmeets, hsum⟩
      have herror := hrefused.mpr ⟨(hmeet.mp hmeets).1, hsum⟩
      rw [herror] at hok
      cases hok

end OneDisk

theorem initDisks_parts {data index : List DiskAgent}
    (h : initDisks openDisk init = .ok (members, data, index)) :
    openDisks openDisk init = .ok members ∧ dataAgents init members = .ok data ∧
      indexAgents init members = .ok index := by
  unfold initDisks at h
  obtain ⟨opened, hopen, h⟩ := exists_of_bind h
  obtain ⟨-, -, h⟩ := exists_of_bind h
  obtain ⟨_, hdata, h⟩ := exists_of_bind h
  obtain ⟨_, hindex, h⟩ := exists_of_bind h
  cases h
  exact ⟨hopen, hdata, hindex⟩

/-- The agents of an accepted layout have regions without common bytes, if no sum in the
tests overflows. -/
theorem regions_apart (hsame : init.indexDiskName = init.dataDiskName)
    (hdataEnd : init.dataDiskOffset + init.dataDiskSize < 2 ^ 64)
    (hsum : init.dataDiskOffset + init.indexDiskSize < 2 ^ 64)
    {data index : List DiskAgent} (hinit : initDisks openDisk init = .ok (members, data, index)) :
    ∀ dataAgent ∈ data, ∀ indexAgent ∈ index, ∀ address, dataAgent.InRegion address →
      ¬ indexAgent.InRegion address := by
  obtain ⟨hok, hdata, hindex⟩ := initDisks_parts hinit
  intro dataAgent hdataAgent indexAgent hindexAgent address hinData hinIndex
  unfold DiskAgent.InRegion at hinData hinIndex
  rw [(dataAgents_range hdata _ hdataAgent).1, (dataAgents_range hdata _ hdataAgent).2] at hinData
  rw [(indexAgents_range hindex _ hindexAgent).1,
    (indexAgents_range hindex _ hindexAgent).2] at hinIndex
  have hopen : 0 ≤ openDisk init.dataDiskName := by
    by_contra hfails
    unfold openDisks at hok
    rw [if_pos (Int.not_le.mp hfails)] at hok
    cases hok
  have herror := (refused_iff hopen hsame (by omega) (by omega) hdataEnd).mpr
    ⟨by omega, fun _ => hsum⟩
  rw [herror] at hok
  cases hok

theorem oneDisk_data_lt : 4096 < 2 ^ 64 := by decide

theorem oneDisk_index_lt : 1024 < 2 ^ 64 := by decide

theorem oneDisk_block_pos : 0 < 512 := by decide

/-- A disk with the data in its first eight blocks and the index behind them. -/
def oneDisk : InitData where
  dataDiskName := "/dev/sdb"
  dataDiskOffset := 0
  dataDiskSize := 4096
  dataBlockSize := 512
  indexDiskName := "/dev/sdb"
  indexDiskOffset := 4096
  indexDiskSize := 1024
  indexBlockSize := 512
  dataAgentNumEach := 1
  dataDiskManagerThreadNum := 1
  indexAgentNumEach := 1
  indexDiskManagerThreadNum := 1
  dataDiskSize_lt := oneDisk_data_lt
  indexDiskSize_lt := oneDisk_index_lt
  dataBlockSize_pos := oneDisk_block_pos
  indexBlockSize_pos := oneDisk_block_pos

theorem layoutKept_iff_oneDisk :
    LayoutKept (fun _ => 3) oneDisk ↔ RangesMeet oneDisk ∧
      (oneDisk.indexDiskOffset < oneDisk.dataDiskOffset →
        oneDisk.dataDiskOffset + oneDisk.indexDiskSize < 2 ^ 64) :=
  layoutKept_iff (by decide) rfl (by decide) (by decide) (by decide)

/-- The layout is accepted, with the index at the offset of the data. -/
theorem layout_misplaced :
    openDisks (fun _ => 3) oneDisk = .ok ⟨3, 0, 3, 0⟩ ∧ oneDisk.indexDiskOffset = 4096 ∧
      ¬ LayoutKept (fun _ => 3) oneDisk := by
  have hok : openDisks (fun _ => 3) oneDisk = .ok ⟨3, 0, 3, 0⟩ := by decide
  refine ⟨hok, rfl, fun hkept => ?_⟩
  exact absurd (hkept.2 _ hok).1 (by decide)

end Controller

end TrafficDatabase
