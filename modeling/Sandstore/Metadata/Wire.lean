import Sandstore.Metadata.Reads

/-!
# Operations in the log

What goes into a raft entry is the JSON of a `RaftCommandEnvelope`, and what is applied is what
`json.Unmarshal` makes of it. The fields of `MetadataOperation` are `omitempty`, which drops zeros, empty
strings, nil pointers and slices without elements; a field that is not there is left at its zero value.

JSON is taken here as the tree that the text stands for: an object answers a value for some of its keys. How
`encoding/json` writes numbers and valid UTF-8 strings and reads them back is left out, and so are the field
`OpID`, which nothing reads, and the ranges of numbers, which hold for what the encoder was given.

For zeros, strings and pointers the zero value is what was dropped. For slices it is not: an empty chunk list
comes back as nil, which the appliers take for "leave it as it is". **The law** (`wire_lossless_iff`): an
envelope has the same effect as what is decoded from its encoding, on all stores, if and only if it is no
update of an inode to the empty chunk list.
-/

namespace Sandstore.Metadata

open Lib
open Raft (Byte Bytes Err NodeId)

/-! ## JSON -/

/-- The keys of the objects in an envelope. -/
inductive Key where
  | envelopeType | posixMeta | chunkIntent
  | type | inodeId | parentId | name | fileType | mode | uid | gid | dstParentId | dstName
  | setMode | setUid | setGid | setAtime | setMtime | newSize | newChunkList | timestamp
  | txnID | chunkID | nodeIDs | state | intentTimestamp
  | locations | logicalNodeAlias | physicalEndpoint
  deriving DecidableEq

/-- A JSON value. A string is its bytes, or its text where the model keeps that. -/
inductive Json where
  | null
  | int (n : Int)
  | str (s : Bytes)
  | text (s : String)
  | arr (items : List Json)
  | obj (get : Key → Option Json)

namespace Json

/-! ### Reading a field -/

/-- What `null` and a missing key leave at its zero value. -/
def orElse {α : Type} (zero : α) (read : Json → Option α) : Option Json → Option α
  | none | some .null => some zero
  | some v => read v

def toInt : Json → Option Int
  | .int n => some n
  | _ => none

def toStr : Json → Option Bytes
  | .str s => some s
  | _ => none

def toText : Json → Option String
  | .text s => some s
  | _ => none

def toArr : Json → Option (List Json)
  | .arr items => some items
  | _ => none

def readInt : Option Json → Option Int := orElse 0 toInt

/-- An unsigned number. -/
def readNat (v : Option Json) : Option Nat := (readInt v).map Int.toNat

def readStr : Option Json → Option Bytes := orElse [] toStr

/-- A pointer to a number. -/
def readPointer : Option Json → Option (Option Int) := orElse none fun v => v.toInt.map some

/-- A slice, nil where there is none. -/
def readSlice {α : Type} (read : Json → Option α) : Option Json → Option (Option (List α)) :=
  orElse none fun v => v.toArr.bind fun items => (items.mapM read).map some

/-! ### Writing a field with `omitempty` -/

def omitZero (n : Int) : Option Json := if n = 0 then none else some (.int n)

def omitEmpty (s : Bytes) : Option Json := if s = [] then none else some (.str s)

def omitNil {α : Type} (write : α → Json) (p : Option α) : Option Json := p.map write

/-- A slice is dropped if it is nil, and also if it is empty. -/
def omitSlice {α : Type} (write : α → Json) : Option (List α) → Option Json
  | none | some [] => none
  | some items => some (.arr (items.map write))

@[simp] theorem readInt_int (n : Int) : readInt (some (.int n)) = some n := rfl

@[simp] theorem readInt_omitZero (n : Int) : readInt (omitZero n) = some n := by
  unfold omitZero
  split
  · next h => rw [h]; rfl
  · rfl

@[simp] theorem readNat_omitZero (n : Nat) : readNat (omitZero n) = some n := by
  rw [readNat, readInt_omitZero]
  rfl

@[simp] theorem readStr_omitEmpty (s : Bytes) : readStr (omitEmpty s) = some s := by
  unfold omitEmpty
  split
  · next h => rw [h]; rfl
  · rfl

@[simp] theorem readPointer_omitNil (p : Option Int) : readPointer (omitNil .int p) = some p := by cases p <;> rfl

theorem mapM_written {α : Type} {write : α → Json} {read : Json → Option α} (h : ∀ a, read (write a) = some a)
    (items : List α) : (items.map write).mapM read = some items := by
  induction items with
  | nil => rfl
  | cons a items ih => simp [h, ih]

/-- What becomes of a slice on the way. -/
theorem readSlice_omitSlice {α : Type} {write : α → Json} {read : Json → Option α}
    (h : ∀ a, read (write a) = some a) (slice : Option (List α)) :
    readSlice read (omitSlice write slice) = some (slice.filter (·.length ≠ 0)) := by
  rcases slice with _ | _ | ⟨a, items⟩
  · rfl
  · rfl
  · have hitems := mapM_written h (a :: items)
    simp only [omitSlice, readSlice, orElse, toArr, Option.bind_some, hitems]
    rfl

end Json

open Json

/-! ## The encoder and the decoder -/

def OpType.code : OpType → Int
  | .create => 0
  | .remove => 1
  | .rename => 2
  | .setAttr => 3
  | .updateInode => 4
  | .other code => code

def OpType.ofCode (code : Int) : OpType :=
  if code = 0 then .create else if code = 1 then .remove else if code = 2 then .rename
  else if code = 3 then .setAttr else if code = 4 then .updateInode else .other code

def InodeType.code : InodeType → Int
  | .file => 0
  | .directory => 1
  | .other code => code

def InodeType.ofCode (code : Int) : InodeType :=
  if code = 0 then .file else if code = 1 then .directory else .other code

def PayloadType.code : PayloadType → Int
  | .posixMeta => 1
  | .chunkIntent => 2
  | .other code => code

def PayloadType.ofCode (code : Int) : PayloadType :=
  if code = 1 then .posixMeta else if code = 2 then .chunkIntent else .other code

def IntentState.code : IntentState → Int
  | .unknown => 0
  | .prepared => 1
  | .committed => 2
  | .aborted => 3
  | .other code => code

def IntentState.ofCode (code : Int) : IntentState :=
  if code = 0 then .unknown else if code = 1 then .prepared else if code = 2 then .committed
  else if code = 3 then .aborted else .other code

def ChunkLocation.marshal (l : ChunkLocation) : Json :=
  .obj fun
    | .logicalNodeAlias => some (.text l.logicalNodeAlias)
    | .physicalEndpoint => some (.text l.physicalEndpoint)
    | _ => none

def ChunkLocation.unmarshal : Json → Option ChunkLocation
  | .obj get => do
    let logicalNodeAlias ← orElse "" toText (get .logicalNodeAlias)
    let physicalEndpoint ← orElse "" toText (get .physicalEndpoint)
    return ⟨logicalNodeAlias, physicalEndpoint⟩
  | _ => none

def ChunkDescriptor.marshal (c : ChunkDescriptor) : Json :=
  .obj fun
    | .chunkID => some (.str c.chunkID)
    | .locations => some (.arr (c.locations.map (·.marshal)))
    | _ => none

def ChunkDescriptor.unmarshal : Json → Option ChunkDescriptor
  | .obj get => do
    let chunkID ← readStr (get .chunkID)
    let locations ← readSlice ChunkLocation.unmarshal (get .locations)
    return ⟨chunkID, locations.getD []⟩
  | _ => none

def MetadataOperation.marshal (op : MetadataOperation) : Json :=
  .obj fun
    | .type => some (.int op.type.code)
    | .inodeId => omitEmpty op.inodeID
    | .parentId => omitEmpty op.parentID
    | .name => omitEmpty op.name
    | .fileType => omitZero op.fileType.code
    | .mode => omitZero op.mode
    | .uid => omitZero op.uid
    | .gid => omitZero op.gid
    | .dstParentId => omitEmpty op.dstParentID
    | .dstName => omitEmpty op.dstName
    | .setMode => omitNil .int (op.setMode.map Int.ofNat)
    | .setUid => omitNil .int (op.setUID.map Int.ofNat)
    | .setGid => omitNil .int (op.setGID.map Int.ofNat)
    | .setAtime => omitNil .int op.setATime
    | .setMtime => omitNil .int op.setMTime
    | .newSize => omitNil .int op.newSize
    | .newChunkList => omitSlice ChunkDescriptor.marshal op.newChunkList
    | .timestamp => some (.int op.timestamp)
    | _ => none

def MetadataOperation.unmarshal : Json → Option MetadataOperation
  | .obj get => do
    return {
      type := .ofCode (← readInt (get .type))
      inodeID := ← readStr (get .inodeId)
      parentID := ← readStr (get .parentId)
      name := ← readStr (get .name)
      fileType := .ofCode (← readInt (get .fileType))
      mode := ← readNat (get .mode)
      uid := ← readNat (get .uid)
      gid := ← readNat (get .gid)
      dstParentID := ← readStr (get .dstParentId)
      dstName := ← readStr (get .dstName)
      setMode := (← readPointer (get .setMode)).map Int.toNat
      setUID := (← readPointer (get .setUid)).map Int.toNat
      setGID := (← readPointer (get .setGid)).map Int.toNat
      setATime := ← readPointer (get .setAtime)
      setMTime := ← readPointer (get .setMtime)
      newSize := ← readPointer (get .newSize)
      newChunkList := ← readSlice ChunkDescriptor.unmarshal (get .newChunkList)
      timestamp := ← readInt (get .timestamp) }
  | _ => none

def ChunkIntentOperation.marshal (intent : ChunkIntentOperation) : Json :=
  .obj fun
    | .txnID => some (.str intent.txnID)
    | .chunkID => some (.str intent.chunkID)
    | .nodeIDs => some (.arr (intent.nodeIDs.map .text))
    | .state => some (.int intent.state.code)
    | .intentTimestamp => some (.int intent.timestamp)
    | _ => none

def ChunkIntentOperation.unmarshal : Json → Option ChunkIntentOperation
  | .obj get => do
    return {
      txnID := ← readStr (get .txnID)
      chunkID := ← readStr (get .chunkID)
      nodeIDs := (← readSlice toText (get .nodeIDs)).getD []
      state := .ofCode (← readInt (get .state))
      timestamp := ← readInt (get .intentTimestamp) }
  | _ => none

def RaftCommandEnvelope.marshal (e : RaftCommandEnvelope) : Json :=
  .obj fun
    | .envelopeType => some (.int e.type.code)
    | .posixMeta => some ((e.posixMeta.map (·.marshal)).getD .null)
    | .chunkIntent => some ((e.chunkIntent.map (·.marshal)).getD .null)
    | _ => none

def Command.unmarshal : Json → Command
  | .obj get => do
    return {
      type := .ofCode (← readInt (get .envelopeType))
      posixMeta := ← orElse none (fun v => (MetadataOperation.unmarshal v).map some) (get .posixMeta)
      chunkIntent := ← orElse none (fun v => (ChunkIntentOperation.unmarshal v).map some) (get .chunkIntent) }
  | _ => none

/-! ## The round trip -/

/-- The codes in an envelope are ones that the source has names for, as in all that `replicateOp` and
`CommitFileWrite` submit. -/
structure RaftCommandEnvelope.Named (e : RaftCommandEnvelope) : Prop where
  type : ∀ code, e.type ≠ .other code
  opType : ∀ op, e.posixMeta = some op → ∀ code, op.type ≠ .other code
  fileType : ∀ op, e.posixMeta = some op → ∀ code, op.fileType ≠ .other code
  state : ∀ intent, e.chunkIntent = some intent → ∀ code, intent.state ≠ .other code

/-- The operation without a chunk list that has no elements. -/
def MetadataOperation.compact (op : MetadataOperation) : MetadataOperation :=
  { op with newChunkList := op.newChunkList.filter (·.length ≠ 0) }

theorem MetadataOperation.compact_eq {op : MetadataOperation} (h : op.newChunkList ≠ some []) : op.compact = op := by
  have hlist : op.newChunkList.filter (·.length ≠ 0) = op.newChunkList := by
    rcases hlist : op.newChunkList with _ | _ | ⟨c, list⟩
    · rfl
    · exact absurd hlist h
    · rfl
  rw [compact, hlist]

theorem ChunkLocation.unmarshal_marshal (l : ChunkLocation) : unmarshal l.marshal = some l := rfl

theorem ChunkDescriptor.unmarshal_marshal (c : ChunkDescriptor) : unmarshal c.marshal = some c := by
  have hlocations := mapM_written ChunkLocation.unmarshal_marshal c.locations
  simp only [marshal, unmarshal, readSlice, orElse, toArr, Option.bind_some, hlocations]
  rfl

theorem MetadataOperation.unmarshal_marshal (op : MetadataOperation) (htype : ∀ code, op.type ≠ .other code)
    (hfile : ∀ code, op.fileType ≠ .other code) : unmarshal op.marshal = some op.compact := by
  have hop : OpType.ofCode op.type.code = op.type := by
    cases h : op.type with
    | other code => exact absurd h (htype code)
    | _ => rfl
  have hfileType : InodeType.ofCode op.fileType.code = op.fileType := by
    cases h : op.fileType with
    | other code => exact absurd h (hfile code)
    | _ => rfl
  have hnat : ∀ p : Option Nat, (p.map Int.ofNat).map Int.toNat = p := fun p => by cases p <;> rfl
  have hlist := readSlice_omitSlice ChunkDescriptor.unmarshal_marshal op.newChunkList
  simp only [marshal, unmarshal, readInt_int, readStr_omitEmpty, readInt_omitZero, readNat_omitZero,
    readPointer_omitNil, hlist, bind, Option.bind, hop, hfileType, hnat]
  rfl

theorem ChunkIntentOperation.unmarshal_marshal (intent : ChunkIntentOperation)
    (hstate : ∀ code, intent.state ≠ .other code) : unmarshal intent.marshal = some intent := by
  have hcode : IntentState.ofCode intent.state.code = intent.state := by
    cases h : intent.state with
    | other code => exact absurd h (hstate code)
    | _ => rfl
  have htext : ∀ id, toText (.text id) = some id := fun _ => rfl
  have hnodes := mapM_written htext intent.nodeIDs
  simp only [marshal, unmarshal, readSlice, orElse, toArr, hnodes, readInt_int, bind, Option.bind, hcode]
  rfl

/-- **What is decoded is what was encoded, with an empty chunk list gone.** -/
theorem RaftCommandEnvelope.unmarshal_marshal (e : RaftCommandEnvelope) (h : e.Named) :
    Command.unmarshal e.marshal = some { e with posixMeta := e.posixMeta.map (·.compact) } := by
  have htype : PayloadType.ofCode e.type.code = e.type := by
    cases h' : e.type with
    | other code => exact absurd h' (h.type code)
    | _ => rfl
  have hposix : orElse none (fun v => (MetadataOperation.unmarshal v).map some)
      (some ((e.posixMeta.map (·.marshal)).getD .null)) = some (e.posixMeta.map (·.compact)) := by
    cases hop : e.posixMeta with
    | none => rfl
    | some op =>
      have hround := op.unmarshal_marshal (h.opType op hop) (h.fileType op hop)
      simp only [Option.map_some, Option.getD_some, MetadataOperation.marshal] at hround ⊢
      simp only [orElse, hround, Option.map_some]
  have hintent : orElse none (fun v => (ChunkIntentOperation.unmarshal v).map some)
      (some ((e.chunkIntent.map (·.marshal)).getD .null)) = some e.chunkIntent := by
    cases hi : e.chunkIntent with
    | none => rfl
    | some intent =>
      have hround := intent.unmarshal_marshal (h.state intent hi)
      simp only [Option.map_some, Option.getD_some, ChunkIntentOperation.marshal] at hround ⊢
      simp only [orElse, hround, Option.map_some]
  simp only [marshal, Command.unmarshal, readInt_int, hposix, hintent, bind, Option.bind, htype]
  rfl

/-! ## What the appliers make of it -/

/-- An update of an inode to the empty chunk list, in an envelope whose applier gets as far. -/
def Forgets (e : RaftCommandEnvelope) : Prop :=
  ∃ op, e.posixMeta = some op ∧ op.type = .updateInode ∧ op.newChunkList = some [] ∧
    (parseUint op.inodeID).isSome ∧ (e.type = .chunkIntent → e.chunkIntent.isSome)

section Effects

variable {st : Store} (now : Int)

theorem encodeInodeKey_error (what : String) {inodeID : Bytes} (h : parseUint inodeID = none) :
    encodeInodeKey what inodeID = .error (.encodeInodeID what inodeID) := by rw [encodeInodeKey, h]

variable {op : MetadataOperation}

/-- An applier that does not come to the chunk list does not miss it. -/
theorem applyStandardMetadata_compact (h : op.type = .updateInode → parseUint op.inodeID = none) :
    st.applyStandardMetadata (some op.compact) = st.applyStandardMetadata (some op) := by
  have htype : op.compact.type = op.type := rfl
  simp only [Store.applyStandardMetadata, htype]
  cases hop : op.type with
  | updateInode =>
    have hid : op.compact.inodeID = op.inodeID := rfl
    simp only [Store.applyUpdateInode, hid, encodeInodeKey_error _ (h hop)]
    rfl
  | _ => rfl

theorem applyMetaUpdate_compact (h : op.type = .updateInode → parseUint op.inodeID = none) :
    st.applyMetaUpdate now (some op.compact) = st.applyMetaUpdate now (some op) := by
  have htype : op.compact.type = op.type := rfl
  have hid : op.compact.inodeID = op.inodeID := rfl
  simp only [Store.applyMetaUpdate, htype, hid]
  split
  · rfl
  · next hupdate =>
    rw [encodeInodeKey_error _ (h (not_not.mp hupdate))]
    rfl

/-- What an update leaves of the chunks, where there is an inode to update. -/
theorem applied_update {e : RaftCommandEnvelope} {key : Bytes} {inode : Inode}
    (hnamed : ∀ code, e.type ≠ .other code) (hop : e.posixMeta = some op) (htype : op.type = .updateInode)
    (hkey : encodeInodeKey "inode id" op.inodeID = .ok key) (hget : st.inodes.get key = some inode)
    (hintent : e.type = .chunkIntent → e.chunkIntent.isSome) :
    ∃ st', st.applyTransaction now (some e) = .ok st' ∧ st'.chunkMap = st.chunkMapAfter op key := by
  have hload : st.loadStoredInode key = .ok inode := by rw [Store.loadStoredInode, hget]
  cases he : e.type with
  | posixMeta =>
    simp only [Store.applyTransaction, he, hop, Store.applyStandardMetadata, htype, Store.applyUpdateInode, hkey, hload,
      bind, Except.bind]
    exact ⟨_, rfl, rfl⟩
  | chunkIntent =>
    obtain ⟨intent, hsome⟩ := Option.isSome_iff_exists.mp (hintent he)
    simp only [Store.applyTransaction, he, hop, hsome, Store.applyChunkIntentAtomic, Store.applyMetaUpdate, htype, hkey,
      hload, bind, Except.bind]
    exact ⟨_, rfl, rfl⟩
  | other code => exact absurd he (hnamed code)

theorem get_replace_nil (chunkMap : Bucket ChunkDescriptor) (key : Bytes) :
    (replaceChunkList chunkMap key []).get (encodeChunkMapKey key 0) = none := by
  show (deleteChunkList chunkMap key).get (encodeChunkMapKey key 0) = none
  rw [get_deleteChunkList, if_pos (prefix_encodeChunkMapKey key 0)]

end Effects

/-- **The encoding loses exactly the empty chunk lists.** -/
theorem wire_lossless_iff (e : RaftCommandEnvelope) (h : e.Named) :
    ((∀ (st : Store) (now : Int), st.applyTransaction now (Command.unmarshal e.marshal) = st.applyTransaction now (some e)) ↔
        ¬ Forgets e) ∧
      ∀ (st st' : Store) (now : Int) op list, e.type = .posixMeta → e.posixMeta = some op → op.type = .updateInode →
        op.newChunkList = some list → list ≠ [] → list.length ≤ 2 ^ 64 →
        st.applyTransaction now (Command.unmarshal e.marshal) = .ok st' →
        ∃ inode, st'.getInode op.inodeID = .ok (inode, list) := by
  rw [e.unmarshal_marshal h]
  refine ⟨⟨?_, ?_⟩, ?_⟩
  · intro hsame ⟨op, hop, htype, hlist, hnumber, hintent⟩
    obtain ⟨n, hn⟩ := Option.isSome_iff_exists.mp hnumber
    have hkey : encodeInodeKey "inode id" op.inodeID = .ok (uint64BE n) := by rw [encodeInodeKey, hn]
    -- a store where the inode has a chunk
    let st : Store :=
      { inodes := (∅ : Bucket Inode).insert (uint64BE n) (Store.rootInode 0)
        chunkMap := (∅ : Bucket ChunkDescriptor).insert (encodeChunkMapKey (uint64BE n) 0) ⟨[], []⟩ }
    have hget : st.inodes.get (uint64BE n) = some (Store.rootInode 0) := OrdMap.get_insert_self _ _ _
    obtain ⟨a, ha, hemptied⟩ := applied_update 0 h.type hop htype hkey hget hintent
    obtain ⟨b, hb, hleft⟩ := applied_update (e := { e with posixMeta := e.posixMeta.map (·.compact) }) 0
      h.type (congrArg (Option.map _) hop) htype hkey hget hintent
    cases ha.symm.trans ((hsame st 0).symm.trans hb)
    have hnone := congrArg (fun m => m.get (encodeChunkMapKey (uint64BE n) 0)) (hemptied.symm.trans hleft)
    simp only [Store.chunkMapAfter, MetadataOperation.compact, hlist, get_replace_nil] at hnone
    exact absurd (hnone.trans (OrdMap.get_insert_self _ _ _)) (Option.some_ne_none _).symm
  · intro hkeeps st now
    obtain ⟨type, posixMeta, chunkIntent⟩ := e
    cases posixMeta with
    | none => rfl
    | some op =>
      by_cases hlist : op.newChunkList = some []
      · have hnone : (type = .chunkIntent → chunkIntent.isSome) → op.type = .updateInode →
            parseUint op.inodeID = none := by
          intro hintent htype
          rw [← Option.not_isSome_iff_eq_none]
          exact fun hnumber => hkeeps ⟨op, rfl, htype, hlist, hnumber, hintent⟩
        cases type with
        | posixMeta => exact applyStandardMetadata_compact (hnone fun h => by cases h)
        | chunkIntent =>
          cases chunkIntent with
          | none => rfl
          | some intent =>
            simp only [Store.applyTransaction, Store.applyChunkIntentAtomic, Option.map_some,
              applyMetaUpdate_compact now (hnone fun _ => rfl)]
        | other code => exact absurd rfl (h.type code)
      · rw [Option.map_some, MetadataOperation.compact_eq hlist]
  · intro st st' now op list htype hop hupdate hlist hsome hfits happly
    have hkept : op.compact = op := MetadataOperation.compact_eq fun hnil => hsome (by simpa [hlist] using hnil)
    simp only [Store.applyTransaction, htype, hop, Option.map_some, hkept, Store.applyStandardMetadata, hupdate] at happly
    obtain ⟨key, inode, hkey, _, rfl⟩ := applyUpdateInode_ok happly
    refine ⟨inode.update op, ?_⟩
    simp only [Store.getInode, hkey, Store.loadStoredInode, OrdMap.get_insert_self, Store.chunkMapAfter, hlist,
      loadChunkList_replace _ _ hfits, bind, Except.bind]
    rfl

/-- The file 1 with one chunk. -/
def oneChunk : Store where
  inodes := (∅ : Bucket Inode).insert (uint64BE 1) { Store.rootInode 0 with inodeID := [49], type := .file }
  chunkMap := (∅ : Bucket ChunkDescriptor).insert (encodeChunkMapKey (uint64BE 1) 0) ⟨[97], []⟩

/-- `UpdateInode` of the file 1, as `replicateOp` submits it. -/
def updateTo (list : List ChunkDescriptor) : RaftCommandEnvelope where
  type := .posixMeta
  posixMeta := some
    { type := .updateInode
      inodeID := [49]
      newSize := some 0
      newChunkList := some list
      setMTime := some 1
      timestamp := 2 }

theorem named_updateTo (list : List ChunkDescriptor) : (updateTo list).Named where
  type := fun _ h => by cases h
  opType := fun _ hop _ h => by cases hop; cases h
  fileType := fun _ hop _ h => by cases hop; cases h
  state := fun _ h => by cases h

theorem wire_lossless_other_list :
    oneChunk.applyTransaction 0 (Command.unmarshal (updateTo [⟨[98], []⟩]).marshal) =
      oneChunk.applyTransaction 0 (some (updateTo [⟨[98], []⟩])) := by
  refine (wire_lossless_iff (updateTo [⟨[98], []⟩]) (named_updateTo _)).1.mpr ?_ oneChunk 0
  intro ⟨op, hop, _, hlist, _⟩
  cases hop
  cases hlist

/-- Setting the empty list leaves the file its chunk; the operation itself would have taken it. -/
theorem wire_drops_empty_list :
    (updateTo []).Named ∧
      ((oneChunk.applyTransaction 0 (Command.unmarshal (updateTo []).marshal)).bind fun st =>
        (st.getInode [49]).map (·.2)) = .ok [⟨[97], []⟩] ∧
      ((oneChunk.applyTransaction 0 (some (updateTo []))).bind fun st => (st.getInode [49]).map (·.2)) = .ok [] :=
  ⟨named_updateTo [], rfl, rfl⟩

end Sandstore.Metadata
