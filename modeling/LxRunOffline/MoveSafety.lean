import LxRunOffline.CopyBelow

/-! A move that falls back on a copy deletes the source afterwards, so nothing of the copy may
lie in it. The check before the copy compares the two bases unit by unit and in one direction;
a chain of directories leads a copy back into a source that it has let through. -/
namespace LxRunOffline

namespace Tree
variable (dir leaf : NodeInfo)

def leafName : Wstr := wstr "x"

def chain : List Wstr → Tree
  | [] => .file leafName leaf .nil
  | name :: names => .dir name dir (chain names) .nil

theorem descendChain (before after : List Wstr) :
    (chain dir leaf (before ++ after)).descend before = some (chain dir leaf after) := by
  induction before with
  | nil => cases after <;> rfl
  | cons name names ih => simpa [chain,descend,findDir] using ih

end Tree
namespace WslReader
variable (r : WslReader) {names : List Wstr}

theorem fileParts (clear : ∀ name ∈ names, backslash ∉ name) {last : Wstr}
    (lastClear : backslash ∉ last) :
    r.parts (r.base ++ (joinDirs backslash names ++ last)) = names ++ [last] := by
  rw [parts,List.drop_left]
  exact Parts.splitText ⟨names,last,clear,lastClear⟩

theorem dirParts (clear : ∀ name ∈ names, backslash ∉ name) :
    r.parts (r.base ++ joinDirs backslash names) = names ++ [[]] := by
  simpa using @fileParts r names clear [] (by simp)

theorem dirAtDirs (clear : ∀ name ∈ names, backslash ∉ name) :
    r.dirAt (r.base ++ joinDirs backslash names) = r.tree.descend names := by
  rw [dirAt,r.dirParts clear,if_pos (by simp),List.dropLast_concat]

theorem infoAtDir {name : Wstr} (clear : ∀ name' ∈ names ++ [name], backslash ∉ name') :
    r.infoAt (r.base ++ joinDirs backslash (names ++ [name])) true =
      (r.tree.descend names).bind fun parent => (parent.findDir name).map Prod.fst := by
  rw [infoAt,if_pos rfl,r.dirParts clear,if_pos (by simp),List.dropLast_concat,
    List.dropLast_concat,List.getLast?_concat]
  rfl

theorem infoAtFile (clear : ∀ name ∈ names, backslash ∉ name) {last : Wstr}
    (lastClear : backslash ∉ last) :
    r.infoAt (r.base ++ (joinDirs backslash names ++ last)) false =
      (r.tree.descend names).bind fun parent => parent.findFile last := by
  rw [infoAt,if_neg Bool.false_ne_true,r.fileParts clear lastClear,List.dropLast_concat,
    List.getLast?_concat]
  rfl

variable {r} {env : FsEnv} {start : FilePath} {s : CopyState} {α β : Type}

theorem staysLogged {x : Copy α} {f : α → Copy β} {e : FsEvent} (mem : e ∈ (x s).2.log)
    (below : Below start [] (x s).2)
    (rest : ∀ a before, Program.Keeps (Below start before) (f a)) : e ∈ ((x >>= f) s).2.log := by
  rw [Program.bindRun]
  cases run : x s with
  | mk outcome t =>
    rw [run] at mem below
    cases outcome with
    | ok a =>
      have later : Below start t.log t := ⟨below.path,below.made,List.prefix_refl _⟩
      exact ((rest a t.log).final later).log.subset mem
    | error stop => exact mem

section Listing
variable {w : Format} {descend : Copy Unit} {isRoot : Bool} {os : Nat} {entry : FindData}
  {found : List FindData}

theorem skipsEntry (works : env.Works) (hidden : ¬ DirApi.Visited isRoot entry) (s : CopyState) :
    (r.api env).enumEntries (r.visit env w) descend isRoot os (entry :: found) s =
      (r.api env).enumEntries (r.visit env w) descend isRoot os found (Clocked.tick s) := by
  have skipped : (r.api env).enumEntry (r.visit env w) descend isRoot os entry s = (.ok (),s) := by
    rw [DirApi.enumEntry,Program.when,if_neg hidden]
    rfl
  have here : (r.api env).current s = (.ok s.data,s) := rfl
  have next : (r.api env).findNext s.data s = (.ok true,Clocked.tick s) := by
    change Fs.findNext env s.data s = _
    rw [Fs.findNext,Program.bindOk (callWorks works _ s)]
    rfl
  rw [DirApi.enumEntries,Program.bindOk skipped,Program.bindOk here,Program.bindOk next,if_pos rfl]

theorem entryLogged (visited : DirApi.Visited isRoot entry) {e : FsEvent}
    (deeper : ∀ before, Program.Keeps (Below start before) descend)
    (mem : e ∈ ((r.api env).enumNamed (r.visit env w) descend entry
      {s with data := s.data ++ entry.name}).2.log)
    (below : Below start [] s) :
    e ∈ ((r.api env).enumEntries (r.visit env w) descend isRoot os (entry :: found) s).2.log := by
  have steady (before : List FsEvent) := @r.walkBelow env w start before
  have named (before : List FsEvent) : Program.Keeps (Below start before)
      ((r.api env).enumNamed (r.visit env w) descend entry) :=
    Program.Triple.ite (fun _ => Program.Triple.bind ((steady before).extending _) fun _ =>
      deeper before) (fun _ => (steady before).acts .file)
  have extended : (r.api env).extend entry.name s = (.ok (),{s with data := s.data ++ entry.name}) :=
    rfl
  have longer : Below start [] {s with data := s.data ++ entry.name} := ⟨below.path,below.made,below.log⟩
  have inside : e ∈ ((r.api env).enumEntry (r.visit env w) descend isRoot os entry s).2.log := by
    rw [DirApi.enumEntry,Program.when,if_pos visited,Program.bindOk extended]
    exact staysLogged mem ((named []).final longer) fun _ before => (steady before).resizing os
  rw [DirApi.enumEntries]
  refine staysLogged inside (Program.Keeps.final ((steady []).entry (deeper []) isRoot os entry) below)
    fun _ before => ?_
  refine DirApi.Steady.reading fun path => Program.Triple.bind ((steady before).next path) fun _ => ?_
  exact Program.Triple.ite (fun _ => (steady before).entries (deeper before) isRoot os found)
    (fun _ => (steady before).acts .exit)

end Listing

theorem storedKeeps {w : Format} {s t : CopyState} {stored : Bool}
    (h : FsWriter.Stored w s (.ok stored,t)) : t.data = s.data ∧ t.isRoot = s.isRoot := by
  match stored,h with
  | true,⟨u,within,same⟩ => exact same ▸ ⟨within.data,within.isRoot⟩
  | false,.inl same => exact same ▸ ⟨rfl,rfl⟩
  | false,.inr ⟨_,_,same⟩ => exact same ▸ ⟨rfl,rfl⟩

theorem visitDirRun (works : env.Works) (path : Wstr) {info : NodeInfo} (plain : r.Unlinked info) (s : CopyState) :
    ∃ t, r.visitDir env .v2 path info s = (.ok (),t) ∧ t.data = s.data ∧ t.isRoot = s.isRoot := by
  obtain ⟨attr,t,read,mode⟩ := r.readAttrWorks works path info s
  have quiet := (@readAttrEmits (fun _ => False) r env path info).returned read
  obtain ⟨stored,u,wrote⟩ := (WslWriter.writeNewFileReturns works .v2 (plain.whole mode)).ends t
  have written : FsWriter.writeNewFile env .v2 attr t = (.ok stored,u) := wrote
  have same := storedKeeps (written ▸ FsWriter.writeNewFileStored env .v2 attr t)
  refine ⟨u,?_,same.1.trans quiet.data,same.2.trans quiet.isRoot⟩
  rw [visitDir,Program.bindOk read,Program.bindOk written]
  rfl

theorem enterRun (works : env.Works) {path : Wstr} (data : s.data = path)
    (there : s.isRoot = false → (∃ info, r.infoAt path true = some info ∧ r.Unlinked info) ∧
      ((r.pathAt path).convert s.path).1 = .ok true) :
    ∃ t, r.visit env .v2 .enter s = (.ok (),t) ∧ t.data = path ∧ t.isRoot = false := by
  rw [visit,if_neg (by decide),Program.bindRun,Program.getRun]
  dsimp only
  cases root : s.isRoot with
  | true => exact ⟨{s with isRoot := false},by simp,data,rfl⟩
  | false =>
    obtain ⟨⟨info,here,plain⟩,converts⟩ := there root
    let t : CopyState := {s with path := ((r.pathAt path).convert s.path).2}
    have converted : convertPath (r.pathAt path) s = (.ok true,t) := Prod.ext converts rfl
    have opened : r.openNode env path true t = (.ok info,Clocked.tick t) := by
      rw [openNode,Program.bindOk (openWorks works path true false t),here]
      rfl
    obtain ⟨u,run,same,still⟩ := @visitDirRun r env works path info plain (Clocked.tick t)
    refine ⟨u,?_,same.trans data,still.trans root⟩
    rw [if_neg (by simp),data,visitNode,Program.bindOk converted,if_pos rfl]
    exact (Program.bindOk opened).trans run

theorem openedRun (works : env.Works) {path : Wstr} (there : (r.dirAt path).isSome) (s : CopyState) :
    ∃ t, r.openListed env path s = (.ok (),t) := by
  rw [openListed,if_pos there]
  obtain ⟨_,t,run⟩ := (Returns.openListed works path).ends s
  exact ⟨t,run⟩

theorem findFirstRun (works : env.Works) {path : Wstr} {t : Tree} (there : r.dirAt path = some t)
    (s : CopyState) : r.findFirst env path s =
      (.ok (⟨dotName,true⟩ :: ⟨dotDotName,true⟩ :: t.entries),Clocked.tick s) := by
  rw [findFirst,Program.bindOk (callWorks works _ s),if_neg (by simp),there]
  rfl

theorem listedRun (works : env.Works) {path : Wstr} {t : Tree} (data : s.data = path)
    (there : r.dirAt path = some t) (below : Below start [] s)
    (inner : s.isRoot = false → (∃ info, r.infoAt path true = some info ∧ r.Unlinked info) ∧
      ((r.pathAt path).convert s.path).1 = .ok true) (fuel : Nat) :
    ∃ u, (r.api env).enumRec (r.visit env .v2) (fuel+1) false s = (r.api env).enumEntries
        (r.visit env .v2) ((r.api env).enumRec (r.visit env .v2) fuel false) false path.length
        t.entries u ∧
      u.data = path ∧ u.isRoot = false ∧ Below start [] u := by
  obtain ⟨s1,opened⟩ := @openedRun r env works path (by simp [there]) s
  have quiet := (@openListedEmits (fun _ => False) r env path).returned opened
  have below1 : Below start [] s1 := below.making (.within quiet fun _ => False.elim)
  obtain ⟨s2,entered,data2,root2⟩ := @enterRun r env s1 works path (quiet.data.trans data)
    (by rw [quiet.isRoot,quiet.path]; exact inner)
  have below2 : Below start [] s2 := by
    have after := (r.visitBelow env .v2 .enter).final below1
    rwa [entered] at after
  have first := findFirstRun works there s2
  refine ⟨Clocked.tick (Clocked.tick (Clocked.tick s2)),?_,data2,root2,⟨below2.path,below2.made,below2.log⟩⟩
  have here : (r.api env).current s = (.ok path,s) := Prod.ext (congrArg Except.ok data) rfl
  have here2 : (r.api env).current s2 = (.ok path,s2) := Prod.ext (congrArg Except.ok data2) rfl
  have dot : ¬ DirApi.Visited false ⟨dotName,true⟩ := by decide
  have dotDot : ¬ DirApi.Visited false ⟨dotDotName,true⟩ := by decide
  rw [DirApi.enumRec,Program.bindOk here]
  refine (Program.bindOk opened).trans ((Program.bindOk entered).trans ?_)
  rw [Program.bindOk here2,Program.when,if_neg Bool.false_ne_true,Program.bindRun,Program.pureRun]
  dsimp only
  rw [Program.bindOk here2]
  refine (Program.bindOk first).trans ?_
  rw [skipsEntry works dot,skipsEntry works dotDot]

def ofChain (S : Wstr) (dir leaf : NodeInfo) (names : List Wstr) : WslReader :=
  ⟨.v2,S,.chain dir leaf names⟩

theorem properUnits {names : List Wstr} (proper : ∀ name ∈ names, ProperName name) :
    ∀ c ∈ joinDirs backslash names, WslV2Path.RelUnit c := by
  intro c mem
  obtain ⟨name,here,inside⟩ := List.mem_flatMap.mp mem
  rcases List.mem_append.mp inside with unit | separator
  · exact .inr ((proper name here).plain c unit)
  · exact .inl (List.mem_singleton.mp separator)

section Chain
variable {S T : Wstr} {dir leaf : NodeInfo} {names done rest : List Wstr}

theorem chainConverts {rel : Wstr} (units : ∀ c ∈ rel, WslV2Path.RelUnit c)
    (below : Below (.wslV2 ⟨T,[]⟩) [] s) : ((ofChain S dir leaf names).pathAt (S ++ rel)).convert s.path =
      (.ok true,.wslV2 ⟨T,rel⟩) := by
  have same : (ofChain S dir leaf names).pathAt (S ++ rel) = .wslV2 ⟨S,rel⟩ := by
    simp [pathAt,ofChain,Format.fresh,FilePath.withRel]
  rw [same]
  exact WslV2Path.convertsSame units below.path

theorem createdMember {log : List FsEvent} {path : Wstr} (mem : (path,false) ∈ creations log) :
    .createdFile path ∈ log := by
  obtain ⟨e,here,same⟩ := List.mem_filterMap.mp mem
  cases e <;> cases same
  exact here

theorem leafCreated (works : env.Works) (proper : ∀ name ∈ names, ProperName name)
    (plain : leaf.links = 1) (bare : ∀ name, leaf.eas name = none)
    (below : Below (.wslV2 ⟨T,[]⟩) [] s)
    (data : s.data = S ++ (joinDirs backslash names ++ Tree.leafName)) :
    .createdFile (T ++ (joinDirs backslash names ++ Tree.leafName)) ∈
      ((ofChain S dir leaf names).visit env .v2 .file s).2.log := by
  have clear : ∀ name ∈ names, backslash ∉ name := fun name mem => (proper name mem).clear
  have units : ∀ c ∈ joinDirs backslash names ++ Tree.leafName, WslV2Path.RelUnit c := by
    intro c mem
    rcases List.mem_append.mp mem with unit | last
    · exact properUnits proper c unit
    · obtain rfl : c = 0x78 := by simpa [Tree.leafName,wstr] using last
      exact .inr ⟨by decide,by decide,by decide⟩
  have there : (ofChain S dir leaf names).infoAt s.data false = some leaf := by
    have found := @infoAtFile (ofChain S dir leaf names) names clear Tree.leafName (by decide)
    have whole := Tree.descendChain dir leaf names []
    rw [List.append_nil] at whole
    rw [data]
    refine found.trans ?_
    rw [ofChain,whole]
    rfl
  have converts := @chainConverts s S T dir leaf names _ units below
  rw [← data] at converts
  have agrees : (ofChain S dir leaf names).Agrees leaf false := by
    intro mode is
    simp [modeOf,ofChain,bare] at is
  have made := @visitNodeCreates _ env .v2 leaf s works (by decide) false s.data there (by rw [converts]) agrees
    fun _ several => absurd several (by rw [plain]; decide)
  rw [converts] at made
  have run : (ofChain S dir leaf names).visit env .v2 .file s =
      (ofChain S dir leaf names).visitNode env .v2 s.data false s := by
    rw [visit,if_neg (by decide),Program.bindRun,Program.getRun]
    rfl
  rw [run]
  refine createdMember ?_
  rw [made]
  simp [FilePath.data,FilePath.base,FilePath.rel]

theorem chainListed (works : env.Works) (real : (ofChain S dir leaf names).Unlinked dir)
    (proper : ∀ name ∈ names, ProperName name)
    (whole : names = done ++ rest) (below : Below (.wslV2 ⟨T,[]⟩) [] s)
    (data : s.data = S ++ joinDirs backslash done) (root : s.isRoot = done.isEmpty) (fuel : Nat) :
    ∃ u, ((ofChain S dir leaf names).api env).enumRec ((ofChain S dir leaf names).visit env .v2)
        (fuel+1) false s = ((ofChain S dir leaf names).api env).enumEntries
        ((ofChain S dir leaf names).visit env .v2) (((ofChain S dir leaf names).api env).enumRec
          ((ofChain S dir leaf names).visit env .v2) fuel false) false
        (S ++ joinDirs backslash done).length (Tree.chain dir leaf rest).entries u ∧
      u.data = S ++ joinDirs backslash done ∧ u.isRoot = false ∧ Below (.wslV2 ⟨T,[]⟩) [] u := by
  have doneProper : ∀ name ∈ done, ProperName name := fun name mem => proper name (by simp [whole,mem])
  have there : (ofChain S dir leaf names).dirAt (S ++ joinDirs backslash done) =
      some (.chain dir leaf rest) := by
    have found := (ofChain S dir leaf names).dirAtDirs fun name mem => (doneProper name mem).clear
    rw [ofChain,whole,Tree.descendChain,← whole] at found
    exact found
  refine listedRun works data there below (fun inner => ⟨?_,?_⟩) fuel
  · rcases List.eq_nil_or_concat done with rfl | ⟨before,name,rfl⟩
    · simp [root] at inner
    · rw [List.concat_eq_append] at whole doneProper ⊢
      have found := (ofChain S dir leaf names).infoAtDir fun name mem => (doneProper name mem).clear
      rw [ofChain,whole,List.append_assoc,Tree.descendChain,← List.append_assoc,← whole] at found
      exact ⟨dir,found.trans (by simp [Tree.chain,Tree.findDir]),real⟩
  · rw [chainConverts (properUnits doneProper) below]

theorem chainCopied (works : env.Works) (real : (ofChain S dir leaf names).Unlinked dir)
    (proper : ∀ name ∈ names, ProperName name)
    (plain : leaf.links = 1) (bare : ∀ name, leaf.eas name = none) (whole : names = done ++ rest)
    (below : Below (.wslV2 ⟨T,[]⟩) [] s) (data : s.data = S ++ joinDirs backslash done)
    (root : s.isRoot = done.isEmpty) {fuel : Nat} (enough : rest.length < fuel) :
    .createdFile (T ++ (joinDirs backslash names ++ Tree.leafName)) ∈
      (((ofChain S dir leaf names).api env).enumRec ((ofChain S dir leaf names).visit env .v2)
        fuel false s).2.log := by
  induction rest generalizing done s fuel with
  | nil =>
    obtain ⟨fuel,rfl⟩ := Nat.exists_eq_succ_of_ne_zero (Nat.ne_zero_of_lt enough)
    obtain ⟨u,run,udata,-,ubelow⟩ := @chainListed env s S T dir leaf _ _ _ works real proper whole
      below data root fuel
    rw [run]
    refine entryLogged (by decide) (fun before => (walkBelow _ env .v2).walk fuel false) ?_ ubelow
    refine leafCreated works proper plain bare ⟨ubelow.path,ubelow.made,ubelow.log⟩ ?_
    simp [udata,whole,Tree.leafName]
  | cons name rest ih =>
    obtain ⟨fuel,rfl⟩ := Nat.exists_eq_succ_of_ne_zero (Nat.ne_zero_of_lt enough)
    obtain ⟨u,run,udata,uroot,ubelow⟩ := @chainListed env s S T dir leaf _ _ _ works real proper whole
      below data root fuel
    have named := proper name (by simp [whole])
    have extended : ((ofChain S dir leaf names).api env).extend [backslash]
        {u with data := u.data ++ name} =
        (.ok (),{u with data := u.data ++ name ++ [backslash]}) := rfl
    rw [run]
    refine entryLogged ⟨named.notDot,named.notDotDot,.inl rfl⟩
      (fun before => (walkBelow _ env .v2).walk fuel false) ?_ ubelow
    rw [DirApi.enumNamed,if_pos rfl,Program.bindOk extended]
    refine @ih {u with data := u.data ++ name ++ [backslash]} (done ++ [name]) (by simp [whole])
      ⟨ubelow.path,ubelow.made,ubelow.log⟩ ?_ ?_ fuel ?_
    · simp [udata]
    · simp [uroot]
    · simpa using enough

end Chain
end WslReader
namespace Naming
variable (n : Naming)

def StaysOut (S T : BaseDir n) : Prop :=
  ∀ (env : FsEnv) (format w : Format) (tree : Tree) (fuel : Nat), w ≠ .linux →
    ∀ e ∈ ((⟨format,S.text,tree⟩ : WslReader).runChecked env w fuel (.new w T.text S.text)).2.log,
      ∀ path, e.made = some path → ¬ n.Inside S.text path

/- Neither of the bases is the other or encloses it. -/
def Apart (S T : BaseDir n) : Prop := ¬ n.Inside S.text T.text ∧ ¬ n.Inside T.text S.text

variable {n} {S T : BaseDir n}

theorem checkedBelow (r : WslReader) (env : FsEnv) (w : Format) (fuel : Nat) {base : Wstr}
    (wsl : w ≠ .linux) : Below (w.fresh base) [] (r.runChecked env w fuel (.new w base r.base)).2 := by
  have checked : Program.Keeps (Below (w.fresh base) []) (FsWriter.checkPath w r.base) := by
    rw [FsWriter.checkPath,if_neg wsl]
    refine Program.Triple.get fun s h => Program.Triple.ite (fun _ => ?_) fun _ =>
      Program.Triple.ite (fun _ => ?_) fun _ => ?_
    all_goals exact fun t same => same ▸ h
  have whole : Program.Keeps (Below (w.fresh base) []) (r.runChecked env w fuel) :=
    Program.Triple.bind checked fun _ => r.runBelow env w fuel
  exact whole.final ⟨FilePath.servedReset .fresh,by simp [CopyState.new],List.prefix_refl _⟩

theorem freshBase {w : Format} (wsl : w ≠ .linux) (base : Wstr) : (w.fresh base).base = base := by
  cases w <;> first | rfl | contradiction

theorem chainLeadsBack {rest : List Wstr} (proper : ∀ name ∈ rest, ProperName name)
    (inside : n.Inside S.text (T.text ++ joinDirs backslash rest))
    (accepted : (WslWriter.checkPath S.text (.new .v2 T.text S.text)).1 = .ok ()) :
    ¬ StaysOut n S T := by
  intro out
  let begun : CopyState := .new .v2 T.text S.text
  let r := WslReader.ofChain S.text (twoNames 0x41ed) {bareNode with links := 1} rest
  have checked : FsWriter.checkPath .v2 S.text begun = (.ok (),begun) := by
    refine Prod.ext accepted ?_
    change (WslWriter.checkPath S.text begun).2 = begun
    rw [WslWriter.checkPath,Program.bindRun,Program.getRun]
    dsimp only
    split
    · rfl
    · split <;> rfl
  have real : r.Unlinked (twoNames 0x41ed) := by
    intro mode is
    obtain rfl : 0x41ed = mode := Option.some.inj is
    decide
  have copied := @WslReader.chainCopied plainFs begun S.text T.text (twoNames 0x41ed)
    {bareNode with links := 1} rest [] rest plainWorks real proper rfl (fun _ => rfl) rfl
    ⟨rfl,by simp [begun,CopyState.new],List.prefix_refl _⟩ (by simp [begun,CopyState.new]) rfl
    (rest.length+1) (Nat.lt_succ_self _)
  have run : r.runChecked plainFs .v2 (rest.length+1) begun =
      (r.api plainFs).enumRec (r.visit plainFs .v2) (rest.length+1) false begun :=
    Program.bindOk checked
  refine out plainFs .v2 .v2 r.tree (rest.length+1) (by decide) _ (run ▸ copied) _ rfl ?_
  rw [← List.append_assoc,Inside,List.map_append]
  exact inside.trans (List.prefix_append _ _)

/- A copy that the check lets through stays out of its source exactly between bases that are
apart. -/
theorem copyStaysOut (accepted : (WslWriter.checkPath S.text (.new .v2 T.text S.text)).1 = .ok ()) :
    StaysOut n S T ↔ Apart n S T := by
  constructor
  · intro out
    refine ⟨fun within => ?_,fun encloses => ?_⟩
    · have nowhere : ∀ name ∈ ([] : List Wstr), ProperName name := by simp
      exact chainLeadsBack nowhere (by simpa using within) accepted out
    · obtain ⟨rest,proper,inside⟩ := enclosed encloses
      exact chainLeadsBack proper inside accepted out
  · intro apart env format w tree fuel wsl e mem path made inside
    have below := (checkedBelow ⟨format,S.text,tree⟩ env w fuel wsl).made e mem path made
    rw [freshBase wsl] at below
    exact (insideBoth below inside).elim apart.1 apart.2

end Naming

theorem lowerSeparator {c : WChar} (same : WslWriter.toLower c = WslWriter.toLower backslash) :
    c = backslash := by
  have stays : WslWriter.toLower backslash = backslash := by decide
  have numbers : (65 : UInt16).toNat = 65 ∧ (90 : UInt16).toNat = 90 ∧ (32 : UInt16).toNat = 32 ∧
    backslash.toNat = 92 := by decide
  rw [stays,WslWriter.toLower] at same
  split at same
  · rename_i upper
    have low := UInt16.le_iff_toNat_le.mp upper.1
    have high := UInt16.le_iff_toNat_le.mp upper.2
    have whole := congrArg UInt16.toNat same
    rw [UInt16.toNat_add] at whole
    omega
  · exact same

def driveNaming : Naming where
  fold := WslWriter.toLower
  volume v := ∃ letter, v = wstr "\\\\?\\" ++ [letter] ++ wstr ":\\"
  separator _ := lowerSeparator
  apart := by
    rintro _ _ ⟨letter,rfl⟩ ⟨other,rfl⟩ -
    simp

def onDrive (name : Wstr) (proper : ProperName name) : BaseDir driveNaming :=
  ⟨wstr "\\\\?\\C:\\",⟨0x43,by decide⟩,[name],by simpa using proper⟩

def lowerS : BaseDir driveNaming :=
  onDrive (wstr "s") ⟨by decide,by decide,by decide,everyUnit (by decide)⟩
def lowerT : BaseDir driveNaming :=
  onDrive (wstr "t") ⟨by decide,by decide,by decide,everyUnit (by decide)⟩

theorem copyStaysOutNextDoor :
    Naming.StaysOut driveNaming lowerS lowerT ↔ Naming.Apart driveNaming lowerS lowerT :=
  Naming.copyStaysOut rfl

def upperT : BaseDir driveNaming :=
  ⟨wstr "\\\\?\\C:\\",⟨0x43,by decide⟩,[wstr "S",wstr "t"],by
    intro name mem
    have both : name = wstr "S" ∨ name = wstr "t" := by simpa using mem
    rcases both with rfl | rfl
    · exact ⟨by decide,by decide,by decide,everyUnit (by decide)⟩
    · exact ⟨by decide,by decide,by decide,everyUnit (by decide)⟩⟩

def besideT : Tree :=
  .file (wstr "x") {bareNode with links := 1} (.dir (wstr "t") (twoNames 0x41ed) .nil .nil)

/- The check takes the other spelling of the source for another directory. -/
theorem otherCaseLeadsBack : ¬ ∀ (n : Naming) (S T : BaseDir n),
    (WslWriter.checkPath S.text (.new .v2 T.text S.text)).1 = .ok () → Naming.StaysOut n S T := by
  intro always
  have accepted : (WslWriter.checkPath lowerS.text (.new .v2 upperT.text lowerS.text)).1 = .ok () :=
    rfl
  have made : .createdFile (upperT.text ++ wstr "x") ∈ ((⟨.v2,lowerS.text,besideT⟩ :
      WslReader).runChecked plainFs .v2 2 (.new .v2 upperT.text lowerS.text)).2.log := by
    decide +kernel
  refine always driveNaming lowerS upperT accepted plainFs .v2 .v2 besideT 2 (by decide) _ made _
    rfl ?_
  rw [Naming.Inside]
  decide

end LxRunOffline
