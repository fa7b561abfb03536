import WireShape.Proofs.Compile.Created
import WireShape.Proofs.Compile.References
import WireShape.Proofs.Expansion

/-!
# References that are found

Where every class has a name and a bucket that are text, and no bucket contains a separator, the
text of a reference tells bucket and name apart, and a reference to something that is defined finds
it under these.

* `Heap.NamedByText`: the names of classes and of their buckets are text.
* `Walked.orderly`: a walk creates definitions under such names.
* `Components.Orderly.find`: a target that is the path of a definition is found.
-/

namespace WireShape

/-- Buckets and names are text, no bucket has a separator in it or stands twice. -/
structure Components.Orderly (c : Components) : Prop where
  separate : OrderedMap.Separate c
  buckets : ∀ bucket ∈ c, ∃ b : String, bucket.1 = .str b ∧ '/' ∉ b.toList
  names : ∀ bucket ∈ c, ∀ entry ∈ bucket.2, ∃ n : String, entry.1 = .str n

namespace Components

variable {c : Components} {bucket name : String} {v : Value}

theorem Orderly.nil : Orderly [] :=
  ⟨.nil, fun _ hb => (by cases hb), fun _ hb => (by cases hb)⟩

theorem Orderly.define (h : c.Orderly) (hbucket : '/' ∉ bucket.toList) :
    (c.define (.str bucket) (.str name) v).Orderly := by
  refine ⟨h.separate.insert, fun b hb => ?_, fun b hb entry hentry => ?_⟩
  · rcases mem_define hb with hold | ⟨entries, hmem, _, _⟩ | rfl
    · exact h.buckets b hold
    · exact h.buckets (b.1, entries) hmem
    · exact ⟨bucket, rfl, hbucket⟩
  · rcases mem_define hb with hold | ⟨entries, hmem, hnew, _⟩ | rfl
    · exact h.names b hold entry hentry
    · rw [hnew] at hentry
      rcases OrderedMap.mem_insert hentry with hold | ⟨_, hkey | ⟨⟨w, hw⟩, _⟩⟩
      · exact h.names (b.1, entries) hmem entry hold
      · exact ⟨name, hkey⟩
      · exact h.names (b.1, entries) hmem (entry.1, w) hw
    · obtain rfl := List.mem_singleton.mp hentry
      exact ⟨name, rfl⟩

/-- Only the text itself stands for a text. -/
theorem Matches.str_left {a : Atom} {s : String} (h : Matches (.str s) a) : a = .str s := by
  rcases h with heq | hsame
  · exact heq.symm
  · exact Atom.str_beq_iff.mp hsame

/-- A target that is the path of a definition is found under the bucket and the name in its text. -/
theorem Orderly.find {describe : Describe} {target : String} (h : c.Orderly)
    (htarget : c.Resolves describe target) : ∃ bucket name d,
      splitReference target = some (bucket, name) ∧ c.lookup bucket name = some d := by
  obtain ⟨_, _, place, what, ⟨entries, hentries, hb, entry, hentry, hn⟩, hplace, hwhat, rfl⟩ := htarget
  obtain ⟨bucket, hbucket, hslash⟩ := h.buckets entries hentries
  obtain ⟨name, hname⟩ := h.names entries hentries entry hentry
  rw [hbucket] at hb
  rw [hname] at hn
  rw [hb.str_left] at hplace
  rw [hn.str_left] at hwhat
  cases hplace
  cases hwhat
  have hfirst : c.bucket (.str place) = entries.2 := by
    unfold Components.bucket OrderedMap.getD
    rw [h.separate.get? hentries (Atom.beq_str_iff.mpr hbucket)]
    rfl
  have hfound : OrderedMap.contains entries.2 (.str what) = true :=
    OrderedMap.contains_iff.mpr ⟨entry, hentry, Atom.beq_str_iff.mpr hname⟩
  obtain ⟨d, hd⟩ := Option.isSome_iff_exists.mp hfound
  refine ⟨place, what, d, splitReference_path hslash, ?_⟩
  unfold lookup find?
  rw [hfirst]
  exact hd

end Components

/-- The names of all classes at or below a position, and those of their buckets, are text without a
separator in the latter. -/
def Heap.NamedByText (h : Heap) (s : Schema) : Prop :=
  ∀ t, h.Reaches s t → (h.view t).className.truthy = true → ∃ bucket name : String,
    (h.view t).classBucket = .str bucket ∧ (h.view t).className = .str name ∧ '/' ∉ bucket.toList

section Orderly

variable {h : Heap} {s t : Schema} {overriding : Bool} {ctx after : Context} {r : Compiled}

theorem Heap.NamedByText.class_eq (hs : h.NamedByText s) (ht : h.Reaches s t) {key : Atom × Atom}
    (hclass : (h.view t).class? = .ok (some key)) :
    ∃ bucket name : String, key = (.str bucket, .str name) ∧ '/' ∉ bucket.toList := by
  obtain ⟨htruthy, hb, hn⟩ := class?_eq_ok_some_iff.mp hclass
  obtain ⟨bucket, name, hbucket, hname, hslash⟩ := hs t ht htruthy
  rw [hbucket] at hb
  rw [hname] at hn
  exact ⟨bucket, name, Prod.ext (Except.ok.inj hb).symm (Except.ok.inj hn).symm, hslash⟩

/-- Where classes are named by text, what a walk creates is named so. -/
theorem Walked.orderly (hrun : Walked h s overriding ctx r after) (hs : h.NamedByText s)
    (hctx : ctx.created.Orderly) : after.created.Orderly := by
  refine hrun.creates (fun t b n d c ht hdefines hc => ?_) hctx
  obtain ⟨bucket, name, hkey, hslash⟩ := hs.class_eq ht.reaches hdefines.class?
  cases hkey
  exact hc.define hslash

end Orderly

end WireShape
