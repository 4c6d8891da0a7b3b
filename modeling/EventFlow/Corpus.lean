import EventFlow.Names.Map

namespace EventFlow

-- The texts to analyze, by bare file name: sources, which may register listeners, and headers.
structure Corpus where
  sources : NameMap String
  headers : NameMap String
  deriving DecidableEq

namespace Corpus

instance : EmptyCollection Corpus := ⟨⟨∅, ∅⟩⟩

def size (corpus : Corpus) : Nat := corpus.sources.size + corpus.headers.size

def isEmpty (corpus : Corpus) : Bool := corpus.sources.isEmpty && corpus.headers.isEmpty

-- Lays another corpus over this one. On a clash of names the upper one counts.
def overlay (corpus upper : Corpus) : Corpus :=
  ⟨corpus.sources.overlay upper.sources, corpus.headers.overlay upper.headers⟩

-- Every file with its text, sources first.
def files (corpus : Corpus) : List (String × String) :=
  corpus.sources.entries ++ corpus.headers.entries

end Corpus

end EventFlow
