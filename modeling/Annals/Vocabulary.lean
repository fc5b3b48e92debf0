import Annals.Term

/-!
# Names with a fixed meaning

The schema terms that the shipped rules speak of, and the predicates that say that two terms denote
the same thing.
-/

namespace Annals.Vocabulary

/-- The namespace of the core vocabulary. -/
def rdf : String := "http://www.w3.org/1999/02/22-rdf-syntax-ns#"

/-- The namespace of the schema vocabulary. -/
def rdfs : String := "http://www.w3.org/2000/01/rdf-schema#"

/-- The namespace of the ontology vocabulary. -/
def owl : String := "http://www.w3.org/2002/07/owl#"

/-- The namespace of the sample vocabulary. -/
def ex : String := "http://example.org/"

/-- The subject is an instance of the object. -/
def type : Term := ⟨"http://www.w3.org/1999/02/22-rdf-syntax-ns#type"⟩

/-- Every instance of the subject is one of the object. -/
def subClassOf : Term := ⟨"http://www.w3.org/2000/01/rdf-schema#subClassOf"⟩

/-- Whatever the subject relates, the object relates too. -/
def subPropertyOf : Term := ⟨"http://www.w3.org/2000/01/rdf-schema#subPropertyOf"⟩

/-- Subject and object denote the same thing. -/
def sameAs : Term := ⟨"http://www.w3.org/2002/07/owl#sameAs"⟩

/-- The object takes the subject's place from the version of the link on. -/
def becomes : Term := ⟨"http://example.org/becomes"⟩

/-- The predicates that link two names of one thing unless others are chosen. -/
def identityPredicates : List Term := [sameAs, becomes]

end Annals.Vocabulary
