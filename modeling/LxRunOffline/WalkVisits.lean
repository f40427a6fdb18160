import LxRunOffline.Walk

/-! Where a walk calls its action. An action that does the same as the one of the reader in every
state that a walk visits an entry in makes the same run, whatever it does in other states. -/
namespace LxRunOffline

namespace Program
variable {ε σ α β : Type} {before : σ → Prop} {x x' : Program ε σ α} {f f' : α → Program ε σ β}

def Same (before : σ → Prop) (x' x : Program ε σ α) : Prop := ∀ s, before s → x' s = x s

theorem Same.refl : Same before x x := fun _ _ => rfl

theorem Same.bind {middle : α → σ → Prop} {bad : ε → σ → Prop} (triple : Triple before x middle bad)
    (same : Same before x' x) (next : ∀ a, Same (middle a) (f' a) (f a)) :
    Same before (x' >>= f') (x >>= f) := by
  intro s hs
  have after := triple s hs
  rw [bindRun,bindRun,same s hs]
  cases run : x s with
  | mk outcome t =>
    rw [run] at after
    cases outcome with
    | ok a => exact next a t after
    | error e => rfl

theorem Same.tail {middle : α → σ → Prop} {bad : ε → σ → Prop} (triple : Triple before x middle bad)
    (next : ∀ a, Same (middle a) (f' a) (f a)) : Same before (x >>= f') (x >>= f) :=
  .bind triple .refl next

theorem Same.head (same : Same before x' x) : Same before (x' >>= f) (x >>= f) := by
  intro s hs
  rw [bindRun,bindRun,same s hs]

theorem Same.skip {c : Prop} [Decidable c] {y y' : Program ε σ Unit} {z z' : Program ε σ α} (no : ¬ c)
    (next : Same before z' z) :
    Same before (when c y' >>= fun _ => z') (when c y >>= fun _ => z) := by
  rw [when,when,if_neg no,if_neg no]
  exact next

end Program
namespace WslReader
open Program (Triple Same)
variable {r : WslReader} {env : FsEnv} {w : Format} {inv : List Frame → Tree → CopyState → Prop}
  {bad : Stop → CopyState → Prop} {act : EnumDirType → Copy Unit} {stack : List Frame} {t u : Tree}
  {path : Wstr} {inner : Bool}

structure Alike (r : WslReader) (env : FsEnv) (w : Format) (inv : List Frame → Tree → CopyState → Prop)
    (act : EnumDirType → Copy Unit) : Prop where
  exit : ∀ s, act .exit s = r.visit env w .exit s
  root : ∀ s, s.isRoot = true → act .enter s = r.visit env w .enter s
  file : ∀ {stack name info rest}, r.infoAt (r.dirPath stack ++ name) false = some info →
    Same (Traversal.Stands inv stack (.file name info rest) (r.dirPath stack ++ name) false)
      (act .file) (r.visit env w .file)
  dir : ∀ {stack name info sub rest}, r.infoAt (r.dirPath stack ++ name ++ [backslash]) true = some info →
    Same (Traversal.Stands inv stack (.dir name info sub rest) (r.dirPath stack ++ name ++ [backslash])
      false) (act .enter) (r.visit env w .enter)

namespace Alike
open Traversal (Stands Enough)

theorem reading {f f' : Wstr → Copy Unit} (h : Same (Stands inv stack t path inner) (f' path) (f path)) :
    Same (Stands inv stack t path inner) ((r.api env).current >>= f') ((r.api env).current >>= f) := by
  intro s hs
  have same : s.data = path := congrArg Prod.fst hs.2
  have run := h s hs
  rw [← same] at run
  exact run

section Entries
variable {descend descend' : Copy Unit} {skips : Bool} {name : Wstr}
  (walks : r.Traversal env w inv bad)
include walks

theorem onward (alike : r.Alike env w inv act) {others others' : Copy Unit}
    (same : Same (Stands inv stack t path false) others' others) :
    Same (Stands inv stack t path false)
      ((r.api env).current >>= fun listed => (r.api env).findNext listed >>= fun more =>
        if more = true then others' else act .exit)
      ((r.api env).current >>= fun listed => (r.api env).findNext listed >>= fun more =>
        if more = true then others else r.visit env w .exit) := by
  refine reading (.tail (walks.asking path) fun more => ?_)
  cases more with
  | true => exact same
  | false => exact fun s _ => alike.exit s

theorem passing (alike : r.Alike env w inv act) {entry : FindData} {found : List FindData}
    (hidden : ¬ DirApi.Visited skips entry)
    (same : Same (Stands inv stack t path false)
      ((r.api env).enumEntries act descend' skips path.length found)
      ((r.api env).enumEntries (r.visit env w) descend skips path.length found)) :
    Same (Stands inv stack t path false)
      ((r.api env).enumEntries act descend' skips path.length (entry :: found))
      ((r.api env).enumEntries (r.visit env w) descend skips path.length (entry :: found)) := by
  rw [DirApi.enumEntries,DirApi.enumEntries,DirApi.enumEntry,DirApi.enumEntry,Program.when,Program.when,
    if_neg hidden,if_neg hidden]
  exact fun s hs => onward walks alike same s hs

theorem fileEntry (node : Same (Stands inv stack t (path ++ name) false) (act .file) (r.visit env w .file)) :
    Same (Stands inv stack t path false)
      ((r.api env).enumEntry act descend' skips path.length ⟨name,false⟩)
      ((r.api env).enumEntry (r.visit env w) descend skips path.length ⟨name,false⟩) := by
  rw [DirApi.enumEntry,DirApi.enumEntry,Program.when,Program.when]
  split
  · exact .tail (walks.extending name) fun _ => .head node
  · exact .refl

theorem dirEntry (deeper : Same (Stands inv stack t (path ++ name ++ [backslash]) false) descend' descend) :
    Same (Stands inv stack t path false)
      ((r.api env).enumEntry act descend' skips path.length ⟨name,true⟩)
      ((r.api env).enumEntry (r.visit env w) descend skips path.length ⟨name,true⟩) := by
  rw [DirApi.enumEntry,DirApi.enumEntry,Program.when,Program.when]
  split
  · refine .tail (walks.extending name) fun _ => .head ?_
    rw [DirApi.enumNamed,DirApi.enumNamed,if_pos rfl,if_pos rfl]
    exact .tail (walks.extending [backslash]) fun _ => deeper
  · exact .refl

end Entries

variable (alike : r.Alike env w inv act) (walks : r.Traversal env w inv bad)
include alike walks

theorem entries (reached : r.Reached stack t) (skips : Bool) {descend descend' : Copy Unit}
    (deeper : ∀ name info sub rest rest', t.Ends (.dir name info sub rest) →
      Triple (Stands inv stack (.dir name info sub rest') (r.dirPath stack ++ name ++ [backslash]) false)
        descend (fun _ => Stands inv stack rest' (r.dirPath stack ++ name ++ [backslash]) false) bad)
    (same : ∀ name info sub rest rest', t.Ends (.dir name info sub rest) →
      Same (Stands inv stack (.dir name info sub rest') (r.dirPath stack ++ name ++ [backslash]) false)
        descend' descend) (ends : t.Ends u) :
    Same (Stands inv stack (Traversal.shown skips u) (r.dirPath stack) false)
      ((r.api env).enumEntries act descend' skips (r.dirPath stack).length u.entries)
      ((r.api env).enumEntries (r.visit env w) descend skips (r.dirPath stack).length u.entries) := by
  induction u with
  | nil => exact fun s _ => alike.exit s
  | file name info rest ih =>
    have next := ih ends.file
    by_cases hidden : skips = true ∧ name = rootfsName
    · rw [Traversal.hiddenFile hidden]
      exact passing walks alike (Traversal.hiddenPassed hidden false) next
    · have visited := Traversal.shownVisited (ends.proper reached.proper).1 hidden false
      rw [Traversal.shownFile hidden,Tree.entries,DirApi.enumEntries,DirApi.enumEntries]
      have there := reached.file ends
      exact .bind (walks.fileEntry visited (walks.file there)) (fileEntry walks (alike.file there))
        fun _ => onward walks alike next
  | dir name info sub rest _ ih =>
    have next := ih ends.dir
    by_cases hidden : skips = true ∧ name = rootfsName
    · rw [Traversal.hiddenDir hidden]
      exact passing walks alike (Traversal.hiddenPassed hidden true) next
    · have visited := Traversal.shownVisited (ends.proper reached.proper).1 hidden true
      rw [Traversal.shownDir hidden,Tree.entries,DirApi.enumEntries,DirApi.enumEntries]
      exact .bind (walks.dirEntry visited (deeper name info sub rest _ ends))
        (dirEntry walks (same name info sub rest _ ends)) fun _ => onward walks alike next

theorem list (reached : r.Reached stack t) (skips : Bool) {descend descend' : Copy Unit}
    (deeper : ∀ name info sub rest rest', t.Ends (.dir name info sub rest) →
      Triple (Stands inv stack (.dir name info sub rest') (r.dirPath stack ++ name ++ [backslash]) false)
        descend (fun _ => Stands inv stack rest' (r.dirPath stack ++ name ++ [backslash]) false) bad)
    (same : ∀ name info sub rest rest', t.Ends (.dir name info sub rest) →
      Same (Stands inv stack (.dir name info sub rest') (r.dirPath stack ++ name ++ [backslash]) false)
        descend' descend) :
    Same (Stands inv stack (Traversal.shown skips t) (r.dirPath stack) false)
      ((r.api env).findFirst (r.dirPath stack) >>= fun found =>
        (r.api env).enumEntries act descend' skips (r.dirPath stack).length found)
      ((r.api env).findFirst (r.dirPath stack) >>= fun found =>
        (r.api env).enumEntries (r.visit env w) descend skips (r.dirPath stack).length found) := by
  refine .tail (walks.listing reached skips) fun found s h => ?_
  obtain ⟨rfl,here⟩ := h
  refine passing walks alike (Traversal.dotsPassed (.inl rfl)) ?_ s here
  exact passing walks alike (Traversal.dotsPassed (.inr rfl))
    (alike.entries walks reached skips deeper same .refl)

theorem dirBelow {fuel : Nat} {name : Wstr} {info : NodeInfo} {sub rest : Tree}
    (there : r.infoAt (r.dirPath stack ++ name ++ [backslash]) true = some info)
    (reached : r.Reached ((name,rest) :: stack) sub) (enough : Enough inv bad sub.depth fuel) :
    Same (Stands inv stack (.dir name info sub rest) (r.dirPath stack ++ name ++ [backslash]) false)
      ((r.api env).enumRec act fuel false) ((r.api env).enumRec (r.visit env w) fuel false) := by
  induction fuel generalizing stack name info sub rest with
  | zero => exact .refl
  | succ fuel ih =>
    have own := @Alike.dir _ _ _ _ _ alike stack name info sub rest there
    have node := walks.entering there sub rest
    rw [← Traversal.dirPathCons] at own node ⊢
    rw [DirApi.enumRec,DirApi.enumRec]
    refine reading (.tail (walks.opening reached) fun _ => .bind node own fun _ => reading ?_)
    refine .skip Bool.false_ne_true (reading ?_)
    have shallow (name : Wstr) (info : NodeInfo) (sub' rest : Tree)
        (ends : sub.Ends (.dir name info sub' rest)) : Enough inv bad sub'.depth fuel := by
      refine enough.imp_left fun deep => ?_
      have lower := ends.depth
      rw [Tree.depth] at lower
      omega
    refine alike.list walks reached false (fun name info sub' rest rest' ends => ?_)
      fun name info sub' rest rest' ends => ?_
    · obtain ⟨there',leads⟩ := reached.dir ends
      exact walks.dirWalk there' (leads rest') (shallow name info sub' rest ends)
    · obtain ⟨there',leads⟩ := reached.dir ends
      exact ih there' (leads rest') (shallow name info sub' rest ends)

omit alike walks in
theorem rootlessBelow (none' : r.tree.findDir rootfsName = none) (fuel : Nat) :
    Same (Stands inv stack t (r.dirPath [] ++ rootfsName ++ [backslash]) false)
      ((r.api env).enumRec act fuel false) ((r.api env).enumRec (r.visit env w) fuel false) := by
  cases fuel with
  | zero => exact .refl
  | succ fuel =>
    rw [DirApi.enumRec,DirApi.enumRec]
    refine reading ?_
    rw [Traversal.rootfsClosed none']
    exact fun _ _ => rfl

section Root
variable (proper : r.tree.Proper) {fuel : Nat} (enough : Enough inv bad r.tree.depth (fuel+1))
include proper enough

theorem topBelow (rest : Tree) {name : Wstr} {info : NodeInfo} {sub : Tree}
    (clear : backslash ∉ name) (there : r.tree.findDir name = some (info,sub)) :
    Same (Stands inv [] (.dir name info sub rest) (r.dirPath [] ++ name ++ [backslash]) false)
      ((r.api env).enumRec act fuel false) ((r.api env).enumRec (r.visit env w) fuel false) := by
  obtain ⟨below,lower⟩ := Tree.findDirProper proper there
  obtain ⟨info',leads⟩ := @Reached.found r [] r.tree name info sub rest (.root proper) clear there
  exact alike.dirBelow walks info' (leads below) (enough.imp_left fun deep => by omega)

theorem listedBelow {name : Wstr} {info : NodeInfo} {sub rest : Tree} (rest' : Tree)
    (ends : r.tree.Ends (.dir name info sub rest)) :
    Same (Stands inv [] (.dir name info sub rest') (r.dirPath [] ++ name ++ [backslash]) false)
      ((r.api env).enumRec act fuel false) ((r.api env).enumRec (r.visit env w) fuel false) := by
  refine alike.topBelow walks proper enough rest' (ends.proper proper).1.clear ?_
  exact ends.findsDir proper

theorem rootfsBelow (legacy : r.format = .legacy) :
    Same (Stands inv [] r.walked (r.dirPath []) false)
      (do
        (r.api env).extend (wstr "rootfs\\")
        (r.api env).enumRec act fuel false
        (r.api env).resize (r.dirPath []).length)
      (do
        (r.api env).extend (wstr "rootfs\\")
        (r.api env).enumRec (r.visit env w) fuel false
        (r.api env).resize (r.dirPath []).length) := by
  refine .tail (walks.extending _) fun _ => .head ?_
  rw [Traversal.rootfsPath]
  cases there : r.tree.findDir rootfsName with
  | none => exact rootlessBelow there fuel
  | some found =>
    have same : r.walked = .dir rootfsName found.1 found.2 r.tree.apart := by
      rw [walked,if_pos legacy,there]
    rw [same]
    exact alike.topBelow walks proper enough _ (by decide) there

end Root

theorem rootBelow (proper : r.tree.Proper) {fuel : Nat} (enough : Enough inv bad r.tree.depth fuel)
    (rooted : r.format = .legacy → (r.tree.findDir rootfsName).isSome ∨ Fails inv bad) :
    Same (Stands inv [] r.walked r.base true)
      ((r.api env).enumDirectory act fuel (r.format = .legacy))
      ((r.api env).enumDirectory (r.visit env w) fuel (r.format = .legacy)) := by
  rw [DirApi.enumDirectory,DirApi.enumDirectory]
  cases fuel with
  | zero => exact .refl
  | succ fuel =>
    have reached := Reached.root proper
    have listed (skips : Bool) := alike.list walks reached skips
      (fun name info sub rest rest' ends => walks.listedWalk proper enough rest' ends)
      fun name info sub rest rest' ends => alike.listedBelow walks proper enough rest' ends
    rw [DirApi.enumRec,DirApi.enumRec,← Traversal.rootPath (r := r)]
    refine reading (.tail (walks.opening reached) fun _ => ?_)
    refine .bind walks.beginning (fun s h => alike.root s (congrArg Prod.snd h.2)) fun _ => reading ?_
    by_cases legacy : r.format = .legacy
    · rw [decide_eq_true legacy]
      exact .bind (walks.rootfsWalk proper enough legacy (rooted legacy))
        (alike.rootfsBelow walks proper enough legacy) fun _ => reading (listed true)
    · have same : r.walked = Traversal.shown false r.tree := if_neg legacy
      rw [same,decide_eq_false legacy]
      exact .skip Bool.false_ne_true (reading (listed false))

end Alike
end WslReader
end LxRunOffline
