/-! What the tool says about itself. -/
namespace IonCircuit.About

def name : String := "gate-legalizer"

def version : String := "0.1.0"

end IonCircuit.About
