import LxRunOffline.Landing

/-! The entries that a walk visits, as texts of names, and the paths that a writer is given for
them. What a directory becomes is never what a file becomes. -/
namespace LxRunOffline

namespace Tree
variable {format : Format} {t : Tree}

theorem apartNames {name : Wstr} (mem : name ∈ t.apart.names) : name ∈ t.names := by
  induction t with
  | nil => cases mem
  | file own info rest ih =>
    rw [apart] at mem
    split at mem
    · exact List.mem_cons_of_mem _ (ih mem)
    · exact (List.mem_cons.mp mem).elim (fun same => same ▸ List.mem_cons_self)
        fun later => List.mem_cons_of_mem _ (ih later)
  | dir own info sub rest _ ih =>
    rw [apart] at mem
    split at mem
    · exact List.mem_cons_of_mem _ (ih mem)
    · exact (List.mem_cons.mp mem).elim (fun same => same ▸ List.mem_cons_self)
        fun later => List.mem_cons_of_mem _ (ih later)

theorem rootfsApart : rootfsName ∉ t.apart.names := by
  induction t with
  | nil => exact List.not_mem_nil
  | file own info rest ih =>
    rw [apart]
    split
    · exact ih
    · rename_i other
      exact fun mem => (List.mem_cons.mp mem).elim (fun same => other same.symm) ih
  | dir own info sub rest _ ih =>
    rw [apart]
    split
    · exact ih
    · rename_i other
      exact fun mem => (List.mem_cons.mp mem).elim (fun same => other same.symm) ih

namespace Encoded

theorem apart (h : t.Encoded format) : t.apart.Encoded format := by
  induction t with
  | nil => trivial
  | file own info rest ih =>
    rw [Tree.apart]
    split
    · exact ih h.2.2
    · exact ⟨h.1,fun mem => h.2.1 (apartNames mem),ih h.2.2⟩
  | dir own info sub rest _ ih =>
    rw [Tree.apart]
    split
    · exact ih h.2.2.2
    · exact ⟨h.1,fun mem => h.2.1 (apartNames mem),h.2.2.1,ih h.2.2.2⟩

theorem found (h : t.Encoded format) {name : Wstr} {info : NodeInfo} {sub : Tree}
    (there : t.findDir name = some (info,sub)) : format.Produces name ∧ sub.Encoded format := by
  induction t with
  | nil => cases there
  | file own info' rest ih => exact ih h.2.2 there
  | dir own info' other rest _ ih =>
    rw [findDir] at there
    split at there
    · rename_i same
      cases there
      exact ⟨same ▸ h.1,h.2.2.1⟩
    · exact ih h.2.2.2 there

theorem visited (h : t.Encoded format) {dirs : List Wstr} (above : ∀ dir ∈ dirs, format.Produces dir) :
    ∀ v ∈ t.visits dirs, (∀ dir ∈ v.dirs, format.Produces dir) ∧ format.Produces v.name := by
  induction t generalizing dirs with
  | nil => exact fun v mem => absurd mem List.not_mem_nil
  | file name info rest ih =>
    intro v mem
    rcases List.mem_cons.mp mem with rfl | later
    · exact ⟨above,h.1⟩
    · exact ih h.2.2 above v later
  | dir name info sub rest ihSub ihRest =>
    intro v mem
    rcases List.mem_cons.mp mem with rfl | inside
    · exact ⟨above,h.1⟩
    · rcases List.mem_append.mp inside with below | later
      · refine ihSub h.2.2.1 (fun dir mem => ?_) v below
        exact (List.mem_append.mp mem).elim (above dir) fun own => List.mem_singleton.mp own ▸ h.1
      · exact ihRest h.2.2.2 above v later

end Encoded
end Tree

theorem WslReader.walkedEncoded {r : WslReader} (encoded : r.tree.Encoded r.format) :
    r.walked.Encoded r.format := by
  rw [walked]
  split
  · cases there : r.tree.findDir rootfsName with
    | none => trivial
    | some found =>
      obtain ⟨produced,below⟩ := encoded.found there
      exact ⟨produced,Tree.rootfsApart,below,encoded.apart⟩
  · exact encoded

namespace Format
variable {format : Format}

structure Reads (format : Format) (name : Wstr) : Prop where
  entry : LinuxEntry name
  plain : format.Plain name

theorem producedAll {names : List Wstr} (h : ∀ name ∈ names, format.Produces name) :
    ∃ texts : List Wstr, names = texts.map format.code.encode ∧ ∀ text ∈ texts, format.Reads text := by
  induction names with
  | nil => exact ⟨[],rfl,by simp⟩
  | cons name names ih =>
    obtain ⟨texts,rfl,all⟩ := ih fun name mem => h name (List.mem_cons_of_mem _ mem)
    obtain ⟨text,entry,plain,rfl⟩ := producedPlain (h name List.mem_cons_self)
    refine ⟨text :: texts,rfl,fun other mem => ?_⟩
    exact (List.mem_cons.mp mem).elim (fun same => same ▸ ⟨entry,plain⟩) (all other)

theorem separatorPlain : format.Plain [slash] := fun _ => everyUnit (by decide)

theorem Plain.append {s t : Wstr} (hs : format.Plain s) (ht : format.Plain t) : format.Plain (s ++ t) :=
  fun v2 c mem => (List.mem_append.mp mem).elim (hs v2 c) (ht v2 c)

theorem joinedReads {texts : List Wstr} (h : ∀ text ∈ texts, format.Reads text) :
    0 ∉ joinDirs slash texts ∧ format.Plain (joinDirs slash texts) := by
  induction texts with
  | nil => exact ⟨List.not_mem_nil,fun _ _ mem => absurd mem List.not_mem_nil⟩
  | cons text texts ih =>
    obtain ⟨entry,plain⟩ := h text List.mem_cons_self
    obtain ⟨noNul,rest⟩ := ih fun other mem => h other (List.mem_cons_of_mem _ mem)
    have apart : (0 : WChar) ≠ slash := by decide
    rw [joinDirsCons]
    refine ⟨by simp [entry.noNul,apart,noNul],plain.append ?_⟩
    exact separatorPlain.append rest

end Format

structure Visit.Spells (format : Format) (v : Visit) (front : Wstr) (last : WChar) : Prop where
  path : v.path = format.code.encode (front ++ [last])
  noNul : 0 ∉ front ++ [last]
  plain : format.Plain (front ++ [last])
  closed : last = slash ↔ v.dir = true

theorem Visit.spelled {format : Format} {v : Visit} (dirs : ∀ dir ∈ v.dirs, format.Produces dir)
    (name : format.Produces v.name) : ∃ front last, v.Spells format front last := by
  obtain ⟨texts,same,reads⟩ := Format.producedAll dirs
  obtain ⟨text,entry,plain,own⟩ := Format.producedPlain name
  obtain ⟨noNul,joined⟩ := Format.joinedReads reads
  have coded : v.path = format.code.encode (joinDirs slash texts ++ text ++ if v.dir then [slash] else []) := by
    have separator := format.escapes.separator
    rw [Visit.path,same,own,← format.escapes.joined,PrefixCode.encodeAppend,PrefixCode.encodeAppend]
    cases v.dir with
    | true => simp [separator]
    | false => simp
  have apart : (0 : WChar) ≠ slash := by decide
  cases dir : v.dir with
  | true =>
    refine ⟨joinDirs slash texts ++ text,slash,by rw [coded,dir]; rfl,?_,?_,iff_of_true rfl dir⟩
    · simp [noNul,entry.noNul,apart]
    · exact (joined.append plain).append Format.separatorPlain
  | false =>
    rcases List.eq_nil_or_concat text with rfl | ⟨front,last,rfl⟩
    · exact absurd rfl entry.proper.1
    · rw [List.concat_eq_append] at coded plain entry
      refine ⟨joinDirs slash texts ++ front,last,by rw [coded,dir]; simp,?_,?_,?_⟩
      · have clear := entry.noNul
        rw [List.append_assoc,List.mem_append,not_or]
        exact ⟨noNul,clear⟩
      · rw [List.append_assoc]
        exact joined.append plain
      · have other : last ≠ slash := fun same => entry.proper.2.2.2 (by simp [same])
        simp [other,dir]

namespace WslReader
variable (r : WslReader) (w : Format) (base : Wstr)

def lands (v : Visit) : Option Wstr :=
  match (r.pathAt (r.base ++ v.path)).convert (w.fresh base) with
  | (.ok true,out) => some out.data
  | _ => none

variable {r} {w} {base} {v u : Visit} {p : Wstr} {out : FilePath}

theorem landsReaches : r.lands w base v = some p ↔
    (r.pathAt (r.base ++ v.path)).Reaches (w.fresh base) p := by
  unfold lands
  constructor
  · intro h
    split at h
    · rename_i out run
      exact ⟨out,run,Option.some.inj h⟩
    · cases h
  · rintro ⟨out,run,rfl⟩
    rw [run]

theorem spelledNamed {front : Wstr} {last : WChar} (spells : v.Spells r.format front last) :
    r.pathAt (r.base ++ v.path) = r.format.named r.base (front ++ [last]) := by
  rw [pathAt,List.drop_left,Format.named,spells.path]

section
variable (encoded : r.tree.Encoded r.format) (visited : v ∈ r.visits)
include encoded visited

theorem visitSpelled : ∃ front last, v.Spells r.format front last := by
  obtain ⟨dirs,name⟩ := (walkedEncoded encoded).visited (by simp) v visited
  exact v.spelled dirs name

theorem landsConverts (reader : r.format ≠ .linux) (fresh : out.reset = w.fresh base) :
    ((r.pathAt (r.base ++ v.path)).convert out).1 = .ok (r.lands w base v).isSome := by
  obtain ⟨front,last,spells⟩ := visitSpelled encoded visited
  have converted := FilePath.namedConvert reader spells.noNul spells.plain r.base base fresh
  have clean := FilePath.namedConvert reader spells.noNul spells.plain r.base base
    (w := w) (FilePath.servedReset .fresh)
  rw [lands,spelledNamed spells]
  cases target : r.format.target w (front ++ [last]) with
  | none =>
    rw [target] at converted clean
    cases run : (r.format.named r.base (front ++ [last])).convert (w.fresh base) with
    | mk outcome held =>
      rw [run] at clean
      cases clean
      exact converted
  | some rel =>
    rw [target] at converted clean
    obtain ⟨held,run,-⟩ := converted
    obtain ⟨held',run',-⟩ := clean
    rw [run,run']
    rfl

theorem visitConverts (reader : r.format ≠ .linux) {s : CopyState} (fresh : s.path.reset = w.fresh base) :
    ∃ held, convertPath (r.pathAt (r.base ++ v.path)) s =
        (.ok (r.lands w base v).isSome,{s with path := held}) ∧
      held.reset = w.fresh base ∧ ∀ p, r.lands w base v = some p → held.data = p := by
  have fine := landsConverts encoded visited reader fresh
  have run : convertPath (r.pathAt (r.base ++ v.path)) s = (.ok (r.lands w base v).isSome,
      {s with path := ((r.pathAt (r.base ++ v.path)).convert s.path).2}) := Prod.ext fine rfl
  refine ⟨_,run,(FilePath.convertReset _ s.path).trans fresh,fun p landed => ?_⟩
  rw [landed] at run
  exact FilePath.reachesOnce (convertPathReaches fresh run) (landsReaches.mp landed)

theorem landsCloses (reader : r.format ≠ .linux) (landed : r.lands w base v = some p) :
    ∃ last rel, (last = slash ↔ v.dir = true) ∧ p = (w.fresh base).base ++ rel ∧ w.Closes last rel := by
  obtain ⟨front,last,spells⟩ := visitSpelled encoded visited
  have clean := FilePath.namedConvert reader spells.noNul spells.plain r.base base
    (w := w) (FilePath.servedReset .fresh)
  obtain ⟨out,run,rfl⟩ := landsReaches.mp landed
  rw [spelledNamed spells] at run
  cases target : r.format.target w (front ++ [last]) with
  | none =>
    rw [target,run] at clean
    cases clean
  | some rel =>
    rw [target] at clean
    obtain ⟨held,run',data⟩ := clean
    obtain rfl : held = out := (Prod.mk.inj (run'.symm.trans run)).2
    exact ⟨last,rel,spells.closed,data,Format.targetCloses spells.noNul target⟩

end

theorem landsApart (encoded : r.tree.Encoded r.format) (reader : r.format ≠ .linux)
    (visited : v ∈ r.visits) (dir : v.dir = true) (visited' : u ∈ r.visits) (file : u.dir = false)
    (landed : r.lands w base v = some p) : r.lands w base u ≠ some p := by
  intro landed'
  obtain ⟨last,rel,closed,is,closes⟩ := landsCloses encoded visited reader landed
  obtain ⟨last',rel',closed',is',closes'⟩ := landsCloses encoded visited' reader landed'
  obtain rfl : rel = rel' := List.append_cancel_left (is.symm.trans is')
  rw [Format.Closes,if_pos (closed.mpr dir)] at closes
  rw [Format.Closes,if_neg fun same => by simp [closed'.mp same] at file] at closes'
  exact closes.elim closes'.2 fun nameless => closes'.1 nameless.2

theorem fileNamed (encoded : r.tree.Encoded r.format) (reader : r.format ≠ .linux)
    (visited : v ∈ r.visits) (file : v.dir = false) : r.lands w base v ≠ some [] := by
  intro landed
  obtain ⟨last,rel,closed,is,closes⟩ := landsCloses encoded visited reader landed
  rw [Format.Closes,if_neg fun same => by simp [closed.mp same] at file] at closes
  exact closes.1 (List.append_eq_nil_iff.mp is.symm).2

end WslReader
end LxRunOffline
