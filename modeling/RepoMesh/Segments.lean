import Mathlib.Data.List.Basic
import Mathlib.Data.List.Infix
import Mathlib.Tactic.Common

/-!
# Texts in segments

A text read as segments that a stop character closes, and `replaceAll`, global
replacement from the left, of a word whose only stop is its last character. Such a word
occurs once in a segment at most, namely at its end, so replacement works segment by
segment.
-/

namespace RepoMesh

section

variable {α : Type} {stop : α}

/-- Induction over the segments of a text; the last one is not closed. -/
theorem segment_induction (stop : α) {motive : List α → Prop}
    (last : ∀ text, stop ∉ text → motive text)
    (closed : ∀ seg rest, stop ∉ seg → motive rest → motive (seg ++ stop :: rest))
    (text : List α) : motive text := by
  by_cases hstop : stop ∈ text
  · obtain ⟨seg, rest, heq, hseg⟩ := List.eq_append_cons_of_mem hstop
    have hlt : rest.length < text.length := by
      rw [heq, List.length_append, List.length_cons]
      omega
    rw [heq]
    exact closed seg rest hseg (segment_induction stop last closed rest)
  · exact last text hstop
  termination_by text.length

/-- A closed word begins a text exactly if the text's first segment is that word. -/
theorem closed_prefix_iff {seg rest : List α} :
    ∀ {body : List α}, stop ∉ body → stop ∉ seg →
      (body ++ [stop] <+: seg ++ stop :: rest ↔ body = seg) := by
  induction seg with
  | nil =>
      intro body hbody _
      cases body with
      | nil => simp
      | cons b body =>
          have hb : b ≠ stop := fun h => hbody (by simp [h])
          simp [hb]
  | cons c seg ih =>
      intro body hbody hseg
      have hc : stop ≠ c := fun h => hseg (by simp [h])
      cases body with
      | nil => simp [hc]
      | cons b body =>
          have hbody' : stop ∉ body := fun h => hbody (by simp [h])
          have hseg' : stop ∉ seg := fun h => hseg (by simp [h])
          simp [ih hbody' hseg']

/-- An occurrence in a text of two parts lies in one of them or begins in the first and
ends in the second. -/
theorem occurrence_append {x y u word v : List α} (h : x ++ y = u ++ word ++ v) :
    (∃ v', x = u ++ word ++ v' ∧ v = v' ++ y) ∨ (∃ u', y = u' ++ word ++ v ∧ u = x ++ u') ∨
      ∃ a b, a ≠ [] ∧ b ≠ [] ∧ word = a ++ b ∧ x = u ++ a ∧ y = b ++ v := by
  rw [List.append_assoc] at h
  rcases List.append_eq_append_iff.mp h with ⟨u', hu, hy⟩ | ⟨a, hx, hword⟩
  · exact .inr (.inl ⟨u', by rw [hy, List.append_assoc], hu⟩)
  · rcases List.append_eq_append_iff.mp hword with ⟨v', ha, hv⟩ | ⟨b, hb, hy⟩
    · exact .inl ⟨v', by rw [hx, ha, List.append_assoc], hv⟩
    · by_cases hanil : a = []
      · subst hanil
        rw [List.nil_append] at hb
        exact .inr (.inl ⟨[], by rw [hy, hb, List.nil_append], by simp [hx]⟩)
      · by_cases hbnil : b = []
        · subst hbnil
          rw [List.append_nil] at hb
          exact .inl ⟨[], by rw [hx, hb, List.append_nil], by simp [hy]⟩
        · exact .inr (.inr ⟨a, b, hanil, hbnil, hb, hx, hy⟩)

end

section

variable {α : Type} [DecidableEq α]

/-- Every occurrence of `old`, from the left, replaced by `new`; `old` is not empty. -/
def replaceAll (old new : List α) : List α → List α
  | [] => []
  | c :: rest =>
      if old.isPrefixOf (c :: rest) then new ++ replaceAll old new (rest.drop (old.length - 1))
      else c :: replaceAll old new rest
  termination_by text => text.length
  decreasing_by
    all_goals
      simp only [List.length_drop, List.length_cons]
      omega

variable {stop : α} {body new seg rest text : List α}

theorem replaceAll_cons_miss {old : List α} {c : α} (h : ¬ old <+: c :: rest) :
    replaceAll old new (c :: rest) = c :: replaceAll old new rest := by
  rw [replaceAll, if_neg (by rwa [List.isPrefixOf_iff_prefix])]

theorem replaceAll_cons_hit {old : List α} {c : α} (h : old <+: c :: rest) :
    replaceAll old new (c :: rest) =
      new ++ replaceAll old new (rest.drop (old.length - 1)) := by
  rw [replaceAll, if_pos (by rwa [List.isPrefixOf_iff_prefix])]

theorem replaceAll_of_not_mem (h : stop ∉ text) :
    replaceAll (body ++ [stop]) new text = text := by
  induction text with
  | nil => rw [replaceAll]
  | cons c text ih =>
      have hstart : ¬ body ++ [stop] <+: c :: text := fun hp => h (hp.subset (by simp))
      rw [replaceAll_cons_miss hstart, ih (fun hm => h (by simp [hm]))]

theorem replaceAll_body :
    replaceAll (body ++ [stop]) new (body ++ stop :: rest) =
      new ++ replaceAll (body ++ [stop]) new rest := by
  have hstart : body ++ [stop] <+: body ++ stop :: rest := ⟨rest, by simp⟩
  cases body with
  | nil =>
      rw [List.nil_append] at hstart ⊢
      rw [List.nil_append, replaceAll_cons_hit hstart]
      simp
  | cons b body =>
      simp only [List.cons_append] at hstart ⊢
      rw [replaceAll_cons_hit hstart]
      simp

/-- A segment that does not end in the word stays, as far as its stop. -/
theorem replaceAll_miss (hbody : stop ∉ body) (hseg : stop ∉ seg) (h : ¬ body <:+ seg) :
    replaceAll (body ++ [stop]) new (seg ++ stop :: rest) =
      seg ++ stop :: replaceAll (body ++ [stop]) new rest := by
  induction seg with
  | nil =>
      have hne : body ≠ [] := fun hb => h (by simp [hb])
      have hstart : ¬ body ++ [stop] <+: [] ++ stop :: rest := fun hp =>
        hne ((closed_prefix_iff hbody (by simp)).mp hp)
      rw [List.nil_append] at hstart ⊢
      rw [replaceAll_cons_miss hstart, List.nil_append]
  | cons c seg ih =>
      have hstart : ¬ body ++ [stop] <+: c :: seg ++ stop :: rest := fun hp =>
        h (by rw [(closed_prefix_iff hbody hseg).mp hp])
      have hrest := ih (fun hm => hseg (by simp [hm])) fun hs =>
        h (hs.trans (List.suffix_cons c seg))
      rw [List.cons_append] at hstart ⊢
      rw [replaceAll_cons_miss hstart, hrest, List.cons_append]

/-- A segment that ends in the word loses it and its stop. -/
theorem replaceAll_hit {pre : List α} (hbody : stop ∉ body) (hpre : stop ∉ pre) :
    replaceAll (body ++ [stop]) new (pre ++ body ++ stop :: rest) =
      pre ++ new ++ replaceAll (body ++ [stop]) new rest := by
  induction pre with
  | nil => rw [List.nil_append, replaceAll_body, List.nil_append]
  | cons c pre ih =>
      have hstart : ¬ body ++ [stop] <+: c :: pre ++ body ++ stop :: rest := by
        intro hp
        have hmem : stop ∉ c :: pre ++ body := by
          simp only [List.mem_append, not_or]
          exact ⟨hpre, hbody⟩
        have hlength := congrArg List.length ((closed_prefix_iff hbody hmem).mp hp)
        simp only [List.length_append, List.length_cons] at hlength
        omega
      have hrest := ih (fun hm => hpre (by simp [hm]))
      simp only [List.cons_append] at hstart ⊢
      rw [replaceAll_cons_miss hstart, hrest]

end

end RepoMesh
