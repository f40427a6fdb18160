import LxRunOffline.LinkedStore
import LxRunOffline.Writer

/-! What the log of a writer leaves on the disk: files and directories under their paths, a file
of several names once. A log that could not have come about has no image. -/
namespace LxRunOffline

structure FileNode where
  dir : Bool
  eas : EaName → Option EaValue
  reparse : Option ReparseData
  times : Option (UInt64 × UInt64 × UInt64)
  bytes : Bytes

namespace FileNode

def new (dir : Bool) : FileNode := ⟨dir,fun _ => none,none,none,[]⟩

def after (node : FileNode) : FsEvent → FileNode
  | .ea _ name value => {node with eas := Function.update node.eas name (some value)}
  | .reparse _ data => {node with reparse := some data}
  | .times _ access write change => {node with times := some (access,write,change)}
  | .wrote _ bytes => {node with bytes := node.bytes ++ bytes}
  | _ => node

def afterAll (node : FileNode) (events : List FsEvent) : FileNode := events.foldl after node

theorem afterDir (node : FileNode) (e : FsEvent) : (node.after e).dir = node.dir := by
  cases e <;> rfl

theorem afterAllDir (node : FileNode) (events : List FsEvent) : (node.afterAll events).dir = node.dir := by
  induction events generalizing node with
  | nil => rfl
  | cons e rest ih => exact (ih (node.after e)).trans (node.afterDir e)

theorem afterAllMore (node : FileNode) (events more : List FsEvent) :
    node.afterAll (events ++ more) = (node.afterAll events).afterAll more := List.foldl_append

end FileNode

abbrev Disk := LinkedStore Wstr FileNode

namespace Disk

/- Only files have further names, and an archive leaves nothing but itself. -/
def step (disk : Disk) (e : FsEvent) : Option Disk :=
  match e with
  | .createdDirectory path => disk.create path (.new true)
  | .createdFile path => disk.create path (.new false)
  | .hardLink path target =>
    if (disk.value target).any FileNode.dir then none else disk.link path target
  | .ea path _ _ => disk.alter path fun node => node.after e
  | .reparse path _ => disk.alter path fun node => node.after e
  | .times path _ _ _ => disk.alter path fun node => node.after e
  | .wrote path _ => disk.alter path fun node => node.after e
  | .accepted path => if (disk.value path).isSome then some disk else none
  | .header _ _ => none
  | .archiveData _ => none

def replay (disk : Disk) (log : List FsEvent) : Option Disk := log.foldlM step disk

def image (log : List FsEvent) : Option Disk := replay .empty log

def altered : FsEvent → Option Wstr
  | .ea path _ _ => some path
  | .reparse path _ => some path
  | .times path _ _ _ => some path
  | .wrote path _ => some path
  | _ => none

variable {disk : Disk} {log more : List FsEvent} {path : Wstr} {node : FileNode} {e : FsEvent}

theorem replayMore : replay disk (log ++ more) = (replay disk log).bind fun d => replay d more :=
  List.foldlM_append

theorem imageMore {after : Disk} (here : image log = some disk) (next : replay disk more = some after) :
    image (log ++ more) = some after := by
  rw [image,replayMore,← image,here,Option.bind_some,next]

def Touches (path : Wstr) (e : FsEvent) : Prop := altered e = some path ∨ e = .accepted path

theorem stepTouches (touches : Touches path e) (there : disk.value path ≠ none) :
    ∃ next, disk.step e = some next ∧ disk.Altered path (·.after e) next := by
  rcases touches with own | rfl
  · have same : disk.step e = disk.alter path fun node => node.after e := by
      cases e <;> cases own <;> rfl
    rw [same]
    exact LinkedStore.alterThere there
  · refine ⟨disk,if_pos (Option.isSome_iff_ne_none.mpr there),fun q _ => ?_,fun _ _ => rfl,fun _ _ => .rfl⟩
    exact Option.map_id'.symm ▸ rfl

theorem replayTouches {events : List FsEvent} (own : ∀ e ∈ events, Touches path e)
    (there : disk.value path ≠ none) :
    ∃ next, replay disk events = some next ∧ disk.Altered path (·.afterAll events) next := by
  induction events generalizing disk with
  | nil => exact ⟨disk,rfl,fun q _ => by simp [FileNode.afterAll],fun _ _ => rfl,fun _ _ => .rfl⟩
  | cons e rest ih =>
    obtain ⟨middle,first,one⟩ := stepTouches (own e List.mem_cons_self) there
    have still : middle.value path ≠ none := by
      rw [one.value path (LinkedStore.sharesSelf there)]
      simpa using there
    obtain ⟨next,others,all⟩ := ih (fun e mem => own e (List.mem_cons_of_mem _ mem)) still
    refine ⟨next,?_,one.trans all⟩
    rw [replay,List.foldlM_cons,first]
    exact others

end Disk
end LxRunOffline
