import LxRunOffline.LinuxName

/-! The loop of the constructor of `linux_path` as the source has it, with an index into the
name. `scan` takes the same steps over what is left of the name. -/
namespace LxRunOffline
namespace LinuxPath

structure LoopState where
  pos : Nat
  cb : Bool
  data : Wstr

def step (path : Wstr) (s : LoopState) : Option LoopState :=
  match path[s.pos]? with
  | none => none
  | some c =>
    if s.cb && c == slash then some {s with pos := s.pos+1}
    else if s.cb && (path.drop s.pos).take 2 == wstr "./" then some {s with pos := s.pos+2}
    else if s.cb && (path.drop s.pos).take 3 == wstr "../" then
      some {s with pos := s.pos+3, data := parent s.data}
    else some ⟨s.pos+1,c == slash,s.data ++ [c]⟩

def steps (path : Wstr) : Nat → LoopState → Option LoopState
  | 0,s => some s
  | n+1,s => (step path s).bind (steps path n)

def entry (path rootPath : Wstr) : Option LoopState :=
  if rootPath.isEmpty then some ⟨0,true,[]⟩
  else if path.take (rootPathSlash rootPath).length ≠ rootPathSlash rootPath then none
  else some ⟨(rootPathSlash rootPath).length,true,[]⟩

def Searches (path : Wstr) (s : LoopState) : Prop :=
  s.cb = true ∧ (path.drop s.pos).take 3 = wstr "../" ∧ s.data ≠ []

theorem scanSkips (n : Nat) (cb : Bool) (data rest : Wstr) :
    scan n cb data rest = scan 0 cb data (rest.drop n) := by
  induction n generalizing rest with
  | zero => rfl
  | succ n ih =>
    cases rest with
    | nil => cases n <;> rfl
    | cons c rest => exact ih rest

theorem stepScan {path : Wstr} {s s' : LoopState} (taken : step path s = some s') :
    scan 0 s'.cb s'.data (path.drop s'.pos) = scan 0 s.cb s.data (path.drop s.pos) := by
  unfold step at taken
  split at taken
  · contradiction
  · rename_i c found
    have left : path.drop s.pos = c :: path.drop (s.pos+1) := by
      obtain ⟨inside,value⟩ := List.getElem?_eq_some_iff.mp found
      rw [List.drop_eq_getElem_cons inside,value]
    rw [left] at taken ⊢
    rw [scan]
    split at taken
    · rename_i again
      cases taken
      rw [if_pos again]
    · rename_i noSlash
      rw [if_neg noSlash]
      split at taken
      · rename_i current
        cases taken
        rw [if_pos current,scanSkips 1,List.drop_drop]
      · rename_i noDot
        rw [if_neg noDot]
        split at taken
        · rename_i up
          cases taken
          rw [if_pos up,scanSkips 2,List.drop_drop]
        · rename_i plain
          cases taken
          rw [if_neg plain]

theorem stepAdvances {path : Wstr} {s s' : LoopState} (taken : step path s = some s') :
    s.pos < path.length ∧ s.pos < s'.pos := by
  unfold step at taken
  split at taken
  · contradiction
  · rename_i c found
    have inside := (List.getElem?_eq_some_iff.mp found).1
    refine ⟨inside,?_⟩
    split at taken
    · cases taken
      exact Nat.lt_succ_self _
    · split at taken
      · cases taken
        exact Nat.lt_add_of_pos_right (by decide)
      · split at taken
        · cases taken
          exact Nat.lt_add_of_pos_right (by decide)
        · cases taken
          exact Nat.lt_succ_self _

theorem stepEnds {path : Wstr} {s : LoopState} : step path s = none ↔ path.length ≤ s.pos := by
  unfold step
  split
  · rename_i outside
    exact iff_of_true rfl (List.getElem?_eq_none_iff.mp outside)
  · rename_i c found
    have inside := (List.getElem?_eq_some_iff.mp found).1
    refine iff_of_false ?_ (by omega)
    split
    · exact Option.some_ne_none _
    · split
      · exact Option.some_ne_none _
      · split <;> exact Option.some_ne_none _

theorem loopEnds {path : Wstr} (left : Nat) {s : LoopState} (bound : path.length ≤ s.pos+left) :
    ∃ n ≤ left, ∃ last, steps path n s = some last ∧ step path last = none ∧
      last.data = scan 0 s.cb s.data (path.drop s.pos) := by
  -- By induction on what is left of the name: every step uses up one unit at least.
  induction left generalizing s with
  | zero =>
    have none' := stepEnds.mpr (show path.length ≤ s.pos by omega)
    refine ⟨0,Nat.le_refl 0,s,rfl,none',?_⟩
    rw [List.drop_eq_nil_of_le (show path.length ≤ s.pos from bound)]
    rfl
  | succ left ih =>
    cases taken : step path s with
    | none =>
      refine ⟨0,Nat.zero_le _,s,rfl,taken,?_⟩
      rw [List.drop_eq_nil_of_le (stepEnds.mp taken)]
      rfl
    | some s' =>
      have further := (stepAdvances taken).2
      obtain ⟨n,few,last,ran,done,data⟩ := @ih s' (by omega)
      refine ⟨n+1,by omega,last,?_,done,data.trans (stepScan taken)⟩
      rw [steps,taken]
      exact ran

/- The data of the loop: whole directories, then the component that is being read, which is
empty exactly at a component boundary. -/
structure Stacked (s : LoopState) (dirs : List Wstr) (comp : Wstr) : Prop where
  data : s.data = joinDirs slash dirs ++ comp
  kept : ∀ dir ∈ dirs, dir ≠ [] ∧ slash ∉ dir
  clear : slash ∉ comp
  boundary : s.cb = true ↔ comp = []

theorem stepStacked {path : Wstr} {s s' : LoopState} {dirs : List Wstr} {comp : Wstr}
    (h : Stacked s dirs comp) (taken : step path s = some s') :
    ∃ dirs' comp', Stacked s' dirs' comp' := by
  unfold step at taken
  split at taken
  · contradiction
  · rename_i c found
    split at taken
    · cases taken
      exact ⟨dirs,comp,h.data,h.kept,h.clear,h.boundary⟩
    · rename_i noSlash
      split at taken
      · cases taken
        exact ⟨dirs,comp,h.data,h.kept,h.clear,h.boundary⟩
      · split at taken
        · rename_i up
          cases taken
          have start : s.cb = true := (Bool.and_eq_true_iff.mp up).1
          have none' := h.boundary.mp start
          have data : s.data = joinDirs slash dirs := by
            rw [h.data,none',List.append_nil]
          refine ⟨dirs.dropLast,[],?_,?_,List.not_mem_nil,?_⟩
          · rw [List.append_nil,← parentDirs h.kept,← data]
          · exact fun dir mem => h.kept dir (List.dropLast_subset dirs mem)
          · exact iff_of_true start rfl
        · cases taken
          by_cases separator : c = slash
          · -- the slash closes the component, which is not empty here
            subst separator
            have inside : comp ≠ [] := fun none' => noSlash (by simp [h.boundary.mpr none'])
            refine ⟨dirs ++ [comp],[],?_,?_,List.not_mem_nil,?_⟩
            · rw [joinDirsSnoc,h.data,List.append_nil]
            · intro dir mem
              rcases List.mem_append.mp mem with old | new
              · exact h.kept dir old
              · cases List.mem_singleton.mp new
                exact ⟨inside,h.clear⟩
            · exact iff_of_true (beq_self_eq_true slash) rfl
          · refine ⟨dirs,comp ++ [c],?_,h.kept,?_,?_⟩
            · rw [h.data,List.append_assoc]
            · simp [h.clear,Ne.symm separator]
            · exact iff_of_false (by simpa using separator) (by simp)

theorem stepsStacked {path : Wstr} {n : Nat} {s s' : LoopState} {dirs : List Wstr} {comp : Wstr}
    (h : Stacked s dirs comp) (ran : steps path n s = some s') :
    ∃ dirs' comp', Stacked s' dirs' comp' := by
  induction n generalizing s dirs comp with
  | zero =>
    cases ran
    exact ⟨dirs,comp,h⟩
  | succ n ih =>
    cases taken : step path s with
    | none => simp [steps,taken] at ran
    | some next =>
      rw [steps,taken] at ran
      obtain ⟨dirs',comp',after⟩ := stepStacked h taken
      exact ih after ran

theorem entryStacked {path rootPath : Wstr} {s : LoopState} (start : entry path rootPath = some s) :
    Stacked s [] [] := by
  have fresh (pos : Nat) : Stacked ⟨pos,true,[]⟩ [] [] :=
    ⟨rfl,by simp,List.not_mem_nil,iff_of_true rfl rfl⟩
  unfold entry at start
  split at start
  · cases start
    exact fresh _
  · split at start
    · contradiction
    · cases start
      exact fresh _

theorem searchRoom {path : Wstr} {s : LoopState} {dirs : List Wstr} {comp : Wstr}
    (h : Stacked s dirs comp) (searches : Searches path s) : 2 ≤ s.data.length := by
  obtain ⟨start,_,some'⟩ := searches
  have none' := h.boundary.mp start
  rcases List.eq_nil_or_concat dirs with rfl | ⟨before,dir,rfl⟩
  · exact absurd (by rw [h.data,none']; rfl) some'
  · rw [List.concat_eq_append] at h
    have nonempty := (h.kept dir (by simp)).1
    have size := List.length_pos_iff.mpr nonempty
    rw [h.data,joinDirsSnoc]
    simp only [List.length_append,List.length_singleton]
    omega

theorem entryStrips {path rootPath : Wstr} :
    (entry path rootPath).map (fun s => path.drop s.pos) = stripRoot path rootPath := by
  unfold entry stripRoot
  split
  · rfl
  · split <;> rfl

theorem entryFresh {path rootPath : Wstr} {s : LoopState} (start : entry path rootPath = some s) :
    s.cb = true ∧ s.data = [] := by
  have stacked := entryStacked start
  exact ⟨stacked.boundary.mpr rfl,stacked.data⟩

theorem loopConstructs {path rootPath : Wstr} {s : LoopState}
    (start : entry path rootPath = some s) :
    ∃ n ≤ path.length, ∃ last, steps path n s = some last ∧ step path last = none ∧
      last.data = (ofName path rootPath).data := by
  obtain ⟨n,few,last,ran,done,data⟩ := @loopEnds path path.length s (by omega)
  have strips := @entryStrips path rootPath
  rw [start,Option.map_some] at strips
  have fresh := entryFresh start
  rw [fresh.1,fresh.2] at data
  refine ⟨n,few,last,ran,done,?_⟩
  rw [data,ofName,← strips]

theorem rootedAccepted {format : Format} (base s : Wstr) :
    ((format.fresh base).appendText (wstr "rootfs/" ++ s ++ [0])).1 = true := by
  cases format with
  | linux =>
    have hits : PrefixMatcher.Hits patterns (wstr "rootfs/" ++ s ++ [0]) := by
      rw [hitsOnly,List.append_assoc]
      exact List.prefix_append _ _
    have fed := feedAfter newAfter (wstr "rootfs/" ++ s ++ [0])
    rw [List.nil_append,if_neg hits.notLeaves] at fed
    obtain ⟨q,same,_⟩ := fed
    exact congrArg Prod.fst same
  | v1 => exact congrArg Prod.fst (WslPath.feedV1 _ _)
  | v2 => exact congrArg Prod.fst (WslPath.feedV2 _ _)
  | legacy =>
    obtain ⟨q,same,_⟩ := WslLegacyPath.feedRooted base s
    exact congrArg Prod.fst same

theorem convertAnswers (path rootPath : Wstr) {format : Format} {base : Wstr} {out : FilePath}
    (served : FilePath.Served format base out) :
    ((FilePath.linux (ofName path rootPath)).convert out).1 =
      .ok (decide ((ofName path rootPath).data ≠ [])) := by
  by_cases none' : (ofName path rootPath).data = []
  · have skip : (ofName path rootPath).skip = true := by
      rw [ofNameSkip,none']
      rfl
    rw [FilePath.convert,FilePath.linuxConvert,if_pos skip,decide_eq_false (not_not.mpr none')]
    rfl
  · have shown : (ofName path rootPath).skip = false := by
      rw [ofNameSkip]
      exact List.isEmpty_eq_false_iff.mpr none'
    have streams := FilePath.linuxStreams shown out
    rw [FilePath.servedReset served] at streams
    rw [streams,decide_eq_true none']
    exact congrArg Except.ok (rootedAccepted base _)

theorem resolvedAgain (p : Parts slash) : ofName (resolve p) [] = named (resolve p) := by
  have none' : ∀ dir ∈ ([] : List Wstr), Proper dir := by simp
  have proper := foldProper none' p.dirsClear
  let again : Parts slash := ⟨p.dirs.foldl enter [],p.last,fun dir mem =>
    (proper dir mem).2.2.2,p.lastClear⟩
  have text : again.text = resolve p := rfl
  have kept : resolve again = resolve p := by
    have same := @foldSame [] (p.dirs.foldl enter []) proper
    rw [resolve,resolve,same,List.nil_append]
  rw [← text,ofNameResolves again rfl,kept,text]

theorem ofNameAgain (path rootPath : Wstr) :
    ofName (ofName path rootPath).data [] = ofName path rootPath := by
  cases stripped : stripRoot path rootPath with
  | none =>
    rw [ofNameSkips stripped]
    rfl
  | some rest =>
    obtain ⟨p,rfl⟩ := Parts.everyText slash rest
    rw [ofNameResolves p stripped]
    exact resolvedAgain p

def rootPart (rootPath : Wstr) : Wstr := if rootPath.isEmpty then [] else rootPathSlash rootPath

theorem stripRootPart {path rootPath rest : Wstr} (whole : path = rootPart rootPath ++ rest) :
    stripRoot path rootPath = some rest := by
  unfold rootPart at whole
  unfold stripRoot
  subst whole
  split
  · rfl
  · rw [List.take_left,if_neg (by simp),List.drop_left]

def Loops (path rootPath data : Wstr) : Prop :=
  ∃ start, entry path rootPath = some start ∧
    (∃ n ≤ path.length, ∃ last, steps path n start = some last ∧ step path last = none ∧
      last.data = data) ∧
    ∀ n s, steps path n start = some s → Searches path s → 2 ≤ s.data.length

theorem strippedLoops {path rootPath rest : Wstr} (stripped : stripRoot path rootPath = some rest) :
    Loops path rootPath (ofName path rootPath).data := by
  cases start : entry path rootPath with
  | none =>
    have strips := @entryStrips path rootPath
    rw [start,stripped] at strips
    contradiction
  | some s =>
    refine ⟨s,start,loopConstructs start,fun n s' ran searches => ?_⟩
    obtain ⟨dirs,comp,stacked⟩ := stepsStacked (entryStacked start) ran
    exact searchRoom stacked searches

/- Every name and every root. -/
theorem nameResolved (path rootPath : Wstr) :
    (rootPath ≠ [] → ¬ rootPathSlash rootPath <+: path →
      entry path rootPath = none ∧ ofName path rootPath = {new with data := [], skip := true}) ∧
    (∀ rest : Parts slash, path = rootPart rootPath ++ rest.text →
      (ofName path rootPath).data = resolve rest ∧ Loops path rootPath (resolve rest)) ∧
    (∀ (format : Format) (base : Wstr) (out : FilePath), FilePath.Served format base out →
      ((FilePath.linux (ofName path rootPath)).convert out).1 =
        .ok (decide ((ofName path rootPath).data ≠ []))) ∧
    ofName (ofName path rootPath).data [] = ofName path rootPath := by
  refine ⟨fun given outside => ?_,fun rest whole => ?_,fun format base out served => ?_,?_⟩
  · have differs : path.take (rootPathSlash rootPath).length ≠ rootPathSlash rootPath :=
      fun same => outside (List.prefix_iff_eq_take.mpr same.symm)
    have skipped : stripRoot path rootPath = none := by
      rw [stripRoot,if_neg (by simpa using given),if_pos differs]
    refine ⟨?_,ofNameSkips skipped⟩
    rw [entry,if_neg (by simpa using given),if_pos differs]
  · have stripped := stripRootPart whole
    have data : (ofName path rootPath).data = resolve rest := by
      rw [ofNameResolves rest stripped]
      rfl
    exact ⟨data,data ▸ strippedLoops stripped⟩
  · exact convertAnswers path rootPath served
  · exact ofNameAgain path rootPath

def climbing : Parts slash where
  dirs := [wstr "a",wstr "..",[],wstr ".",wstr "b"]
  last := wstr ".."
  dirsClear := by decide
  lastClear := by decide

theorem climbingResolved :
    ((ofName (wstr "fs/a/..//./b/..") (wstr "fs")).data = resolve climbing ∧
      Loops (wstr "fs/a/..//./b/..") (wstr "fs") (resolve climbing)) ∧
    ((FilePath.linux (ofName (wstr "fs/a/..//./b/..") (wstr "fs"))).convert
        (Format.legacy.fresh (wstr "C:\\t\\"))).1 =
      .ok (decide ((ofName (wstr "fs/a/..//./b/..") (wstr "fs")).data ≠ [])) ∧
    entry (wstr "fs2/a") (wstr "fs") = none ∧
    ofName (wstr "fs2/a") (wstr "fs") = {new with data := [], skip := true} :=
  ⟨(nameResolved (wstr "fs/a/..//./b/..") (wstr "fs")).2.1 climbing (by decide),
    (nameResolved (wstr "fs/a/..//./b/..") (wstr "fs")).2.2.1 .legacy _ _ .fresh,
    (nameResolved (wstr "fs2/a") (wstr "fs")).1 (by decide) (by decide)⟩

end LinuxPath
end LxRunOffline
